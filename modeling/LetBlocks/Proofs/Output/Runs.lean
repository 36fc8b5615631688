import LetBlocks.Proofs.Header.Grammar
import LetBlocks.Proofs.Output.Written
import LetBlocks.Proofs.Token.Seams

/-!
What is written around copied tokens is chosen so that it is read the same whatever the scan
expects, and after each mark but a closing parenthesis an operand is expected. A copied run is
read as it was in the source, and only its two ends need a look: before it stands a fixed piece
or a blank, and after it a byte that joins nothing but a line comment, for which a line feed is
written, and a literal that was left open at the end of its line. From this follows how the
opening of a let-block is read if none of its runs ends in such a literal.
-/

namespace LetBlocks

open Region Piece

namespace Output

/-! ### Fixed pieces -/

def marks : List String := ["(", ")", "\x7b", "\x7d", ",", ";"]

/-- A mark is read everywhere and before anything. -/
theorem reads_mark {text : String} (h : text ∈ marks) (expect : Expectation) (rest : Text) :
    Reads expect (mark text) rest := by
  have hbyte : ∃ b, utf8 text = [b] ∧ b.isBlank = false ∧ b.isWord = false ∧ b ≠ Byte.dot ∧
      opensLiteral b = false ∧ ∀ o ∈ operators, o.head? ≠ some b := by
    simp only [marks, List.mem_cons, List.not_mem_nil, or_false] at h
    rcases h with rfl | rfl | rfl | rfl | rfl | rfl <;>
      exact ⟨_, rfl, by decide, by decide, by decide, by decide, by decide⟩
  obtain ⟨b, hb, hblank, hword, hdot, hopens, hoperators⟩ := hbyte
  have hpiece : CodePiece .punct [b] rest :=
    .punct hblank hword (fun h => absurd h hdot) (operatorLength_cons_of_ne hoperators _)
  rw [mark, hb]
  exact reads_of_codePiece hpiece (readLiteral?_of_not_opensLiteral hopens expect 0 rest)

theorem after_mark {text : String} (h : text ∈ marks) (hparen : text ≠ ")")
    (expect : Expectation) : expect.after (mark text) = .operand := by
  simp only [marks, List.mem_cons, List.not_mem_nil, or_false] at h
  rcases h with rfl | rfl | rfl | rfl | rfl | rfl <;> first | rfl | exact absurd rfl hparen

def words : List String := ["try", "throw", "catch", "undefined"]

theorem reads_word {text : String} (h : text ∈ words) (expect : Expectation) {rest : Text}
    (hrest : Text.Avoids Byte.isWord rest) : Reads expect (word text) rest := by
  have hbyte : ∃ b more, utf8 text = b :: more ∧ b.isWordStart = true ∧
      (∀ x ∈ more, x.isWord = true) ∧ wordKind (b :: more) = .identifier := by
    simp only [words, List.mem_cons, List.not_mem_nil, or_false] at h
    rcases h with rfl | rfl | rfl | rfl <;>
      exact ⟨_, _, rfl, by decide, Text.forall_mem_of_all (by decide), by decide⟩
  obtain ⟨b, more, hb, hstart, hmore, hkind⟩ := hbyte
  rw [word, hb]
  exact reads_of_codePiece (.word hkind.symm hstart hmore hrest)
    (readLiteral?_of_not_opensLiteral (opensLiteral_eq_false hstart (by decide)) expect 0 _)

theorem reads_letWord (expect : Expectation) {rest : Text}
    (hrest : Text.Avoids Byte.isWord rest) : Reads expect letWord rest :=
  reads_of_codePiece (.word rfl (by decide) (Text.forall_mem_of_all (by decide)) hrest)
    (readLiteral?_of_not_opensLiteral (by decide) expect 0 _)

theorem reads_gap (expect : Expectation) {rest : Text}
    (hrest : Text.Avoids Byte.isInlineBlank rest) : Reads expect gap rest :=
  reads_of_codePiece (.blanks (by decide) (by simp) hrest)
    (readLiteral?_of_not_opensLiteral (by decide) expect 0 _)

theorem reads_lineFeed (expect : Expectation) (rest : Text) : Reads expect lineFeed rest :=
  reads_of_codePiece .lf (readLiteral?_of_not_opensLiteral (by decide) expect 0 _)

/-- The contents of a comment: the first `*/` is the one after them. -/
def Closes (text : Text) : Prop :=
  ∀ pos rest, readBlockComment pos (text ++ utf8 "*/" ++ rest) =
    ⟨⟨pos + (text ++ utf8 "*/").length, rest⟩, true⟩

theorem closes_nil : Closes [] := by
  intro pos rest
  rfl

theorem Closes.cons {b : Byte} {text : Text} (h : Closes text)
    (hb : ¬ (b = Byte.star ∧ (text ++ utf8 "*/").head? = some Byte.slash)) :
    Closes (b :: text) := by
  intro pos rest
  have hhead : (text ++ utf8 "*/" ++ rest).head? = (text ++ utf8 "*/").head? := by
    cases text <;> rfl
  rw [List.cons_append, List.cons_append, readBlockComment, hhead, if_neg hb, h (pos + 1) rest]
  simp [Nat.add_assoc, Nat.add_comm 1]

/-- An escaped text does not close the comment it stands in. -/
theorem closes_escapeComment (text : Text) : Closes (escapeComment text ++ utf8 " ") := by
  induction text with
  | nil => exact closes_nil.cons (by decide)
  | cons b text ih =>
      have hescape : escapeComment (b :: text) = guardedCons b (escapeComment text) := rfl
      rw [hescape, guardedCons]
      split_ifs with hguard
      · rw [List.cons_append, List.cons_append]
        refine (ih.cons ?_).cons ?_
        · rintro ⟨hspace, -⟩
          exact absurd hspace (by decide)
        · rintro ⟨-, hslash⟩
          exact absurd hslash (by simp; decide)
      · rw [List.cons_append]
        refine ih.cons ?_
        rintro ⟨hstar, hslash⟩
        cases hrest : escapeComment text with
        | nil =>
            rw [hrest] at hslash
            exact absurd hslash (by decide)
        | cons c more =>
            rw [hrest] at hslash hguard
            exact hguard ⟨hstar, hslash⟩

theorem readLiteral?_comment {text : Text} (h : Closes text) (expect : Expectation)
    (rest : Text) :
    readLiteral? expect ⟨0, (comment text).lexeme ++ rest⟩ =
      some (.blockComment, ⟨⟨2 + (text ++ utf8 "*/").length, rest⟩, true⟩) := by
  rw [← h 2 rest, comment, List.append_assoc, List.append_assoc, ← List.append_assoc text]
  rfl

theorem reads_comment {text : Text} (h : Closes text) (expect : Expectation) (rest : Text) :
    Reads expect (comment text) rest :=
  reads_of_literal rfl (readLiteral?_comment h expect rest) (.inr ⟨rfl, trivial⟩)

/-! ### Runs that begin with a fixed piece -/

theorem chain_mark {text : String} (h : text ∈ marks) (hparen : text ≠ ")")
    {expect : Expectation} {ps : List Piece} {rest : Text} :
    Chain expect (mark text :: ps) rest ↔ Chain .operand ps rest := by
  rw [Chain, after_mark h hparen]
  exact and_iff_right (reads_mark h expect _)

theorem chain_comment {text : Text} (h : Closes text) {expect : Expectation} {ps : List Piece}
    {rest : Text} : Chain expect (comment text :: ps) rest ↔ Chain expect ps rest :=
  and_iff_right (reads_comment h expect _)

theorem afterAll_append (expect : Expectation) (ps qs : List Piece) :
    expect.afterAll (ps ++ qs) = (expect.afterAll ps).afterAll qs :=
  List.foldl_append

theorem afterAll_mark {text : String} (h : text ∈ marks) (hparen : text ≠ ")")
    (expect : Expectation) (ps : List Piece) :
    expect.afterAll (ps ++ [mark text]) = .operand := by
  rw [afterAll_append]
  exact after_mark h hparen (expect.afterAll ps)

/-! ### Blanks at the ends of a run -/

theorem afterAll_blanks {ts : List Token} (h : ∀ t ∈ ts, t.isBlank = true)
    (expect : Expectation) : expect.afterAll (copied ts) = expect := by
  induction ts generalizing expect with
  | nil => rfl
  | cons t ts ih =>
      rw [List.forall_mem_cons] at h
      have ht : expect.after t.toPiece = expect := by
        have hblank := h.1
        unfold Token.isBlank at hblank
        cases hkind : t.kind <;> simp_all [Token.Kind.isBlank, Expectation.after]
      exact (congrArg (Expectation.afterAll · (copied ts)) ht).trans (ih h.2 expect)

theorem copied_append (ts us : List Token) : copied (ts ++ us) = copied ts ++ copied us :=
  List.map_append

theorem exists_trimStart (ts : List Token) :
    ∃ blanks, ts = blanks ++ trimStart ts ∧ ∀ t ∈ blanks, t.isBlank = true :=
  ⟨ts.takeWhile Token.isBlank, List.takeWhile_append_dropWhile.symm,
    fun _ ht => List.mem_takeWhile_imp ht⟩

theorem exists_trimEnd (ts : List Token) :
    ∃ blanks, ts = trimEnd ts ++ blanks ∧ ∀ t ∈ blanks, t.isBlank = true := by
  obtain ⟨blanks, hsplit, hblanks⟩ := exists_trimStart ts.reverse
  refine ⟨blanks.reverse, ?_, fun t ht => hblanks t (List.mem_reverse.1 ht)⟩
  have hreverse := congrArg List.reverse hsplit
  rwa [List.reverse_reverse, List.reverse_append] at hreverse

theorem isTrivia_of_blanks {blanks : List Token} (h : ∀ t ∈ blanks, t.isBlank = true) :
    ∀ p ∈ copied blanks, p.kind.isTrivia = true := by
  rw [copied, List.forall_mem_map]
  intro t ht
  have hblank : t.kind.isBlank = true := h t ht
  rw [Token.toPiece_kind, Token.Kind.isTrivia, hblank, Bool.true_or]

/-- The line feed after a line comment. -/
theorem closedPieces_cases (ts : List Token) :
    ∃ feed, closedPieces ts = copied ts ++ feed ∧ ∀ p ∈ feed, p.kind.isTrivia = true := by
  rw [closedPieces]
  split_ifs
  · exact ⟨[lineFeed], rfl, by simp [lineFeed, Token.Kind.isTrivia, Token.Kind.isBlank]⟩
  · exact ⟨[], rfl, by simp⟩

theorem afterAll_trimStart (expect : Expectation) (ts : List Token) :
    expect.afterAll (copied (trimStart ts)) = expect.afterAll (copied ts) := by
  obtain ⟨blanks, hsplit, hblanks⟩ := exists_trimStart ts
  conv_rhs => rw [hsplit, copied_append, afterAll_append, afterAll_blanks hblanks]

theorem chain_trimStart {expect : Expectation} {ts : List Token} {rest : Text}
    (h : Chain expect (copied ts) rest) : Chain expect (copied (trimStart ts)) rest := by
  obtain ⟨blanks, hsplit, hblanks⟩ := exists_trimStart ts
  rw [hsplit, copied_append, chain_append, afterAll_blanks hblanks] at h
  exact h.2

/-- What follows the last token that is not blank is calm, if what follows the run is. -/
theorem calm_blanks {expect : Expectation} {blanks : List Token} {rest : Text}
    (h : Chain expect (copied blanks) rest) (hblanks : ∀ t ∈ blanks, t.isBlank = true)
    (hrest : rest.Calm) : Text.Calm (spell (copied blanks) ++ rest) := by
  cases blanks with
  | nil => exact hrest
  | cons t ts =>
      obtain ⟨b, more, hlexeme, hblank⟩ := h.1.isBlank_head
      have hb : b.isBlank = true := hblank.trans (hblanks t (by simp))
      rw [copied, List.map_cons, spell_cons, hlexeme]
      exact Text.avoids_cons.2 (Byte.extendsPunct_of_isBlank hb)

theorem chain_trimEnd {expect : Expectation} {ts : List Token} {rest : Text}
    (h : Chain expect (copied ts) rest) (hrest : rest.Calm) :
    ∃ rest', rest'.Calm ∧ Chain expect (copied (trimEnd ts)) rest' := by
  obtain ⟨blanks, hsplit, hblanks⟩ := exists_trimEnd ts
  rw [hsplit, copied_append, chain_append] at h
  exact ⟨_, calm_blanks h.2 hblanks hrest, h.1⟩

/-! ### The end of a run -/

/-- Does a run end, but for blanks, in a literal that is not closed? -/
def endsOpen (ts : List Token) : Bool := (trimEnd ts).getLast?.any (·.toPiece.isUnclosed)

theorem getLast?_trimEnd (ts : List Token) :
    (trimEnd ts).getLast? = ts.reverse.find? (!·.isBlank) := by
  rw [trimEnd, List.getLast?_reverse, List.find?_eq_head?_dropWhile_not]
  simp

theorem endsOpen_eq_false_iff {ts : List Token} :
    endsOpen ts = false ↔ ∀ t ∈ (trimEnd ts).getLast?, t.toPiece.isUnclosed = false := by
  rw [endsOpen, Option.any_eq_false]
  rfl

theorem endsOpen_append {ts us : List Token} (h : ∃ t ∈ us, t.isBlank = false) :
    endsOpen (ts ++ us) = endsOpen us := by
  obtain ⟨t, ht, hblank⟩ := h
  have hsome : (us.reverse.find? (!·.isBlank)).isSome = true :=
    List.find?_isSome.2 ⟨t, List.mem_reverse.2 ht, by simp [hblank]⟩
  obtain ⟨last, hlast⟩ := Option.isSome_iff_exists.1 hsome
  rw [endsOpen, endsOpen, getLast?_trimEnd, getLast?_trimEnd, List.reverse_append,
    List.find?_append, hlast, Option.some_or]

theorem endsOpen_trimStart (ts : List Token) : endsOpen (trimStart ts) = endsOpen ts := by
  obtain ⟨blanks, hsplit, hblanks⟩ := exists_trimStart ts
  have hnone : blanks.reverse.find? (!·.isBlank) = none := by simpa using hblanks
  conv_rhs => rw [hsplit, endsOpen, getLast?_trimEnd, List.reverse_append, List.find?_append,
    hnone, Option.or_none]
  rw [endsOpen, getLast?_trimEnd]

/-- A byte before which anything but a line comment and an open literal can end. -/
theorem bars_eq_false {p : Piece} {b : Byte} (hclosed : p.isUnclosed = false)
    (hkind : p.kind ≠ .lineComment)
    (hb : b.isNumeral = false ∧ b.isBlank = false ∧ b ≠ Byte.slash ∧ b ≠ Byte.star) :
    p.bars b = false := by
  obtain ⟨hnumeral, hblank, hslash, hstar⟩ := hb
  have hword : b.isWord = false := (Bool.or_eq_false_iff.1 hnumeral).1
  obtain ⟨hinline, hbreak⟩ := Byte.isBlank_eq_false_iff.1 hblank
  have hlf : b ≠ Byte.lf := by
    rintro rfl
    exact absurd hbreak (by decide)
  have hdigit := (Byte.isWord_eq_false_iff.1 hword).2
  rw [bars_of_not_isUnclosed hclosed, joins]
  cases hp : p.kind <;> simp_all

def Stops (rest : Text) : Prop :=
  ∃ b more, rest = b :: more ∧ (utf8 ")\x7d,;").contains b = true

theorem Stops.byte {rest : Text} (h : Stops rest) :
    ∃ b more, rest = b :: more ∧ b.extendsPunct = false ∧ b.isNumeral = false ∧
      b.isBlank = false ∧ b ≠ Byte.slash ∧ b ≠ Byte.star := by
  obtain ⟨b, more, rfl, hb⟩ := h
  have hall : ∀ b ∈ utf8 ")\x7d,;", b.extendsPunct = false ∧ b.isNumeral = false ∧
      b.isBlank = false ∧ b ≠ Byte.slash ∧ b ≠ Byte.star :=
    Text.forall_mem_of_all (by decide)
  exact ⟨b, more, rfl, hall b (by simpa using hb)⟩

theorem Stops.calm {rest : Text} (h : Stops rest) : rest.Calm := by
  obtain ⟨b, more, rfl, hb, -⟩ := h.byte
  exact Text.avoids_cons.2 hb

theorem Stops.admits {p : Piece} {rest : Text} (h : Stops rest)
    (hclosed : p.isUnclosed = false) (hkind : p.kind ≠ .lineComment) : p.Admits rest := by
  obtain ⟨b, more, rfl, -, hb⟩ := h.byte
  exact Text.avoids_cons.2 (bars_eq_false hclosed hkind hb)

/-- A run that is closed can be put before any mark that closes or separates. -/
theorem chain_closedPieces {expect : Expectation} {ts : List Token} {rest rest' : Text}
    (h : Chain expect (copied ts) rest) (hrest : rest.Calm)
    (hclosed : ∀ t ∈ ts.getLast?, t.toPiece.isUnclosed = false) (hstops : Stops rest') :
    Chain expect (closedPieces ts) rest' := by
  have hlast : (copied ts).getLast? = ts.getLast?.map Token.toPiece := List.getLast?_map
  unfold closedPieces
  split_ifs with hcomment
  · rw [chain_append]
    refine ⟨h.move hrest (Text.avoids_cons.2 (by decide)) ?_, reads_lineFeed _ _, trivial⟩
    intro p hp
    rw [hlast] at hp
    obtain ⟨t, ht, rfl⟩ := Option.map_eq_some_iff.1 hp
    rw [ht] at hcomment
    have hkind : t.kind = .lineComment := by simpa using hcomment
    refine Text.avoids_cons.2 ?_
    rw [bars_of_not_isUnclosed (hclosed t ht)]
    simp [joins, hkind, Byte.isLineBreak]
  · rw [List.append_nil]
    refine h.move hrest hstops.calm ?_
    intro p hp
    rw [hlast] at hp
    obtain ⟨t, ht, rfl⟩ := Option.map_eq_some_iff.1 hp
    rw [ht] at hcomment
    exact hstops.admits (hclosed t ht) (by simpa using hcomment)

theorem chain_trimmedPieces {expect : Expectation} {ts : List Token} {rest rest' : Text}
    (h : Chain expect (copied ts) rest) (hrest : rest.Calm) (hclosed : endsOpen ts = false)
    (hstops : Stops rest') : Chain expect (trimmedPieces ts) rest' := by
  obtain ⟨rest₁, hcalm, hchain⟩ := chain_trimEnd (chain_trimStart h) hrest
  rw [← endsOpen_trimStart] at hclosed
  exact chain_closedPieces hchain hcalm (endsOpen_eq_false_iff.1 hclosed) hstops

/-- A trimmed run does not begin with a blank, nor does what follows if there is nothing in
it. -/
theorem avoids_trimmedPieces {expect : Expectation} {ts : List Token} {rest rest' : Text}
    (h : Chain expect (copied ts) rest) (hstops : Stops rest') :
    Text.Avoids Byte.isInlineBlank (spell (trimmedPieces ts) ++ rest') := by
  obtain ⟨blanks, hsplit, -⟩ := exists_trimEnd (trimStart ts)
  have hchain := chain_trimStart h
  rw [trimmedPieces, closedPieces]
  cases hrun : trimEnd (trimStart ts) with
  | nil =>
      obtain ⟨b, more, rfl, -, -, hblank, -⟩ := hstops.byte
      exact Text.avoids_cons.2 (Byte.isBlank_eq_false_iff.1 hblank).1
  | cons t run =>
      have hstart : trimStart ts = t :: (run ++ blanks) := by
        rw [hsplit, hrun, List.cons_append]
      have ht : t.isBlank = false := by
        have hdrop : ts.dropWhile Token.isBlank = t :: (run ++ blanks) := hstart
        have hnot :=
          List.head_dropWhile_not Token.isBlank (show ts.dropWhile _ ≠ [] by simp [hdrop])
        simpa [hdrop] using hnot
      rw [hstart] at hchain
      obtain ⟨b, more, hlexeme, hblank⟩ := hchain.1.isBlank_head
      have hb : b.isBlank = false := hblank.trans ht
      rw [copied, List.map_cons, List.cons_append, spell_cons, hlexeme]
      exact Text.avoids_cons.2 (Byte.isBlank_eq_false_iff.1 hb).1

/-! ### Declarations -/

/-- An identifier is read whatever is expected. -/
theorem reads_identifier {expect : Expectation} {p : Piece} {rest : Text}
    (h : Reads expect p rest) (hkind : p.kind = .identifier) (expect' : Expectation) :
    Reads expect' p rest := by
  obtain ⟨-, ⟨kind, hliteral, -, -⟩ | ⟨-, hpiece⟩⟩ := h.cases
  · rw [hkind] at hliteral
    cases kind <;> cases hliteral
  · have hopens : ∃ b more, p.lexeme = b :: more ∧ opensLiteral b = false := by
      rw [hkind] at hpiece
      generalize p.lexeme = lexeme at hpiece
      cases hpiece with
      | word _ hb => exact ⟨_, _, rfl, opensLiteral_eq_false hb (by decide)⟩
    obtain ⟨b, more, hlexeme, hb⟩ := hopens
    have hnone : readLiteral? expect' ⟨0, p.lexeme ++ rest⟩ = none := by
      rw [hlexeme]
      exact readLiteral?_of_not_opensLiteral hb expect' 0 _
    exact reads_of_codePiece hpiece hnone

theorem chain_identifier {expect : Expectation} {p : Piece} {ps : List Piece} {rest : Text}
    (h : Chain expect (p :: ps) rest) (hkind : p.kind = .identifier) (expect' : Expectation) :
    Chain expect' (p :: ps) rest := by
  have hafter : expect'.after p = expect.after p := by
    simp [Expectation.after, hkind]
  refine ⟨reads_identifier h.1 hkind expect', ?_⟩
  rw [hafter]
  exact h.2

/-- A declaration whose tokens can be put down elsewhere. -/
structure Standalone (d : Declaration) : Prop where
  kind : d.name.kind = .identifier
  name : ∀ expect, Reads expect d.name.toPiece []
  tokens : ∀ expect, ∃ rest, Text.Calm rest ∧ Chain expect (copied d.tokens) rest
  value : ∀ init ∈ d.initializer, ∃ rest, Text.Calm rest ∧ Chain .operand (copied init) rest
  closed : endsOpen d.tokens = false
  value_closed : ∀ init ∈ d.initializer, endsOpen init = false

/-- A declaration ends like its initializer. -/
theorem endsOpen_declaration {used : List Token} {d : Declaration}
    (h : Header.IsDeclaration used d) : endsOpen d.tokens = d.initializer.any endsOpen := by
  cases h with
  | bare _ hname _ =>
      rw [endsOpen, getLast?_trimEnd, Option.any_none]
      simp [isUnclosed_of_kind, hname, Token.Kind.isLiteral, Token.isBlank, Token.Kind.isBlank]
  | @valued before tgap init name equals _ _ _ _ hinit =>
      obtain ⟨t, ht, htrivia⟩ := hinit.significant
      have hsplit : name :: tgap ++ equals :: init = (name :: tgap ++ [equals]) ++ init := by
        simp
      rw [Option.any_some, hsplit, endsOpen_append ⟨t, ht, Token.isBlank_of_isTrivia htrivia⟩]

theorem after_equals {t : Token} (h : Header.isEquals t = true) (expect : Expectation) :
    expect.after t.toPiece = .operand := by
  obtain ⟨hkind, hlexeme⟩ := Token.isPunct_iff.1 h
  simp only [Expectation.after, Token.toPiece_kind, hkind, Token.toPiece_lexeme, hlexeme]
  rfl

theorem standalone_of_declaration {used : List Token} {d : Declaration} {expect : Expectation}
    {rest : Text} (hd : Header.IsDeclaration used d) (h : Chain expect (copied used) rest)
    (hrest : rest.Calm) (hclosed : endsOpen d.tokens = false) : Standalone d := by
  have hvalue : ∀ init ∈ d.initializer, endsOpen init = false := by
    rw [endsOpen_declaration hd] at hclosed
    exact (Option.any_eq_false _ _).1 hclosed
  cases hd with
  | @bare before after name hbefore hname hafter =>
      rw [copied_append, chain_append] at h
      have hread := (reads_iff.1 h.2.1).1
      exact {
        kind := hname
        name := reads_identifier hread hname
        tokens := fun expect =>
          ⟨[], Text.avoids_nil _, reads_identifier hread hname expect, trivial⟩
        value := by simp
        closed := hclosed
        value_closed := hvalue }
  | @valued before tgap init name equals hbefore hname hgap hequals hinit =>
      rw [List.append_assoc, copied_append, chain_append] at h
      have hread := (reads_iff.1 h.2.1).1
      refine {
        kind := hname
        name := reads_identifier hread hname
        tokens := fun expect => ⟨rest, hrest, chain_identifier h.2 hname expect⟩
        value := ?_
        closed := hclosed
        value_closed := hvalue }
      rintro init' hinit'
      cases hinit'
      have hinit := h.2
      rw [copied_append, chain_append] at hinit
      refine ⟨rest, hrest, ?_⟩
      have hchain := hinit.2.2
      rwa [after_equals hequals] at hchain

theorem calm_separator {t : Token} (h : Header.isComma t = true ∨ Header.isCloseParen t = true)
    (ts : List Token) (rest : Text) : Text.Calm (spell (copied (t :: ts)) ++ rest) := by
  rw [copied, List.map_cons, spell_cons, Token.toPiece_lexeme]
  rcases h with h | h <;> rw [(Token.isPunct_iff.1 h).2] <;>
    exact Text.avoids_cons.2 (by decide)

theorem standalone_of_list {used : List Token} {ds : List Declaration} {expect : Expectation}
    {rest : Text} (hlist : Header.IsList used ds) (h : Chain expect (copied used) rest)
    (hclosed : ∀ d ∈ ds, endsOpen d.tokens = false) : ∀ d ∈ ds, Standalone d := by
  induction hlist generalizing expect with
  | @last used d close hd hclose =>
      rw [copied_append, chain_append] at h
      rw [List.forall_mem_singleton] at hclosed ⊢
      exact standalone_of_declaration hd h.1 (calm_separator (.inr hclose) [] rest) hclosed
  | @trailing used gap d comma close hd hcomma hgap hclose =>
      rw [copied_append, chain_append] at h
      rw [List.forall_mem_singleton] at hclosed ⊢
      exact standalone_of_declaration hd h.1 (calm_separator (.inl hcomma) _ rest) hclosed
  | @cons used more d ds comma hd hcomma hmore ih =>
      rw [copied_append, chain_append] at h
      rw [List.forall_mem_cons] at hclosed ⊢
      exact ⟨standalone_of_declaration hd h.1 (calm_separator (.inl hcomma) more rest)
        hclosed.1, ih h.2.2 hclosed.2⟩

theorem standalone_of_header {tokens : List Token} {ds : List Declaration}
    {expect : Expectation} {rest : Text} (hheader : Header.IsHeader tokens ds)
    (h : Chain expect (copied tokens) rest) (hclosed : ∀ d ∈ ds, endsOpen d.tokens = false) :
    ∀ d ∈ ds, Standalone d := by
  cases hheader with
  | @intro letToken paren brace tgap list after _ hlet hgap hparen hlist hafter hbrace =>
      rw [copied_append, chain_append, copied_append, chain_append, copied_append,
        chain_append] at h
      exact standalone_of_list hlist h.1.1.2.2 hclosed

/-! ### Blocks -/

theorem stops_mark {text : String} (h : text ∈ [")", "\x7d", ",", ";"]) (ps : List Piece)
    (rest : Text) :
    Stops (spell (mark text :: ps) ++ rest) := by
  rw [spell_cons, mark]
  simp only [List.mem_cons, List.not_mem_nil, or_false] at h
  rcases h with rfl | rfl | rfl | rfl <;> exact ⟨_, _, rfl, by decide⟩

theorem Stops.avoids_isWord {rest : Text} (h : Stops rest) : Text.Avoids Byte.isWord rest := by
  obtain ⟨b, more, rfl, -, hb, -⟩ := h.byte
  exact Text.avoids_cons.2 (Bool.or_eq_false_iff.1 hb).1

/-- The operand of `throw` is read as it was meant, and on the same line. -/
theorem chain_operandPieces {d : Declaration} (hd : Standalone d) {rest : Text}
    (hstops : Stops rest) :
    Chain .operand (operandPieces d) rest ∧
      Text.Avoids Byte.isInlineBlank (spell (operandPieces d) ++ rest) := by
  unfold operandPieces valuePieces
  cases hinit : d.initializer with
  | none =>
      exact ⟨⟨reads_word (by decide) _ hstops.avoids_isWord, trivial⟩,
        Text.avoids_cons.2 (by decide)⟩
  | some init =>
      obtain ⟨rest₁, hcalm, hchain⟩ := hd.value init hinit
      have hclosed := hd.value_closed init hinit
      simp only [Option.any_some, Option.elim_some]
      split_ifs
      · refine ⟨?_, Text.avoids_cons.2 (by decide)⟩
        rw [List.cons_append, chain_mark (by decide) (by decide), chain_append]
        exact ⟨chain_trimmedPieces hchain hcalm hclosed (stops_mark (by decide) [] rest),
          reads_mark (by decide) _ _, trivial⟩
      · exact ⟨chain_trimmedPieces hchain hcalm hclosed hstops,
          avoids_trimmedPieces hchain hstops⟩

theorem closes_valueNote (d : Declaration) :
    Closes (utf8 " = " ++ escapeComment (valueText d) ++ utf8 " ") := by
  rw [List.append_assoc]
  have hescape := closes_escapeComment (valueText d)
  refine ((hescape.cons ?_).cons ?_).cons ?_ <;>
    · rintro ⟨hstar, -⟩
      exact absurd hstar (by decide)

theorem closes_layerNote : Closes (utf8 "let") :=
  closes_nil.cons (by decide) |>.cons (by decide) |>.cons (by decide)

/-- The end of a layer's header, from its `catch` on. -/
theorem chain_catch (style : Style) {d : Declaration} (hd : Standalone d)
    (expect : Expectation) (rest : Text) :
    Chain expect
      ([word "catch", mark "(", d.name.toPiece] ++ valueNotePieces style d ++
        [mark ")", mark "\x7b"])
      rest := by
  have hmarks : ∀ expect, Chain expect [mark ")", mark "\x7b"] rest :=
    fun expect => ⟨reads_mark (by decide) _ _, reads_mark (by decide) _ _, trivial⟩
  have hname : ∀ {text : Text} expect, Text.Avoids Byte.isWord text →
      Reads expect d.name.toPiece text := by
    intro text expect havoids
    refine reads_iff.2 ⟨hd.name expect, ?_, by simp [hd.kind]⟩
    refine (admits_of_kind (by simp [hd.kind, Token.Kind.isLiteral])).2 ?_
    have hjoins : d.name.toPiece.joins = Byte.isWord := by
      funext b
      simp [joins, hd.kind]
    rwa [hjoins]
  refine ⟨reads_word (by decide) _ (Text.avoids_cons.2 (by decide)), ?_⟩
  rw [List.append_eq, List.append_eq, List.cons_append, List.cons_append,
    chain_mark (by decide) (by decide), List.cons_append, List.nil_append]
  unfold valueNotePieces
  split_ifs
  · exact ⟨hname _ (Text.avoids_cons.2 (by decide)),
      (chain_comment (closes_valueNote d)).2 (hmarks _)⟩
  · exact ⟨hname _ (Text.avoids_cons.2 (by decide)), hmarks _⟩

theorem layerPieces_eq (style : Style) (d : Declaration) :
    layerPieces style d = word "try" :: mark "\x7b" :: word "throw" :: gap ::
      (operandPieces d ++
      mark "\x7d" :: (layerNotePieces style ++ ([word "catch", mark "(", d.name.toPiece] ++
        valueNotePieces style d ++ [mark ")", mark "\x7b"]))) := by
  simp [layerPieces]

theorem chain_layerPieces (style : Style) {d : Declaration} (hd : Standalone d)
    (expect : Expectation) (rest : Text) : Chain expect (layerPieces style d) rest := by
  have hafter : (Expectation.operand.after (word "throw")).after gap = .operand := by decide
  obtain ⟨hoperand, havoids⟩ := chain_operandPieces hd
    (@stops_mark "\x7d" (by decide)
      (layerNotePieces style ++ ([word "catch", mark "(", d.name.toPiece] ++
      valueNotePieces style d ++ [mark ")", mark "\x7b"])) rest)
  rw [layerPieces_eq]
  refine ⟨reads_word (by decide) _ (Text.avoids_cons.2 (by decide)), ?_⟩
  rw [chain_mark (by decide) (by decide)]
  refine ⟨reads_word (by decide) _ (Text.avoids_cons.2 (by decide)), reads_gap _ ?_, ?_⟩
  · rw [spell_append, List.append_assoc]
    exact havoids
  · rw [hafter, chain_append]
    refine ⟨hoperand, ?_⟩
    rw [chain_mark (by decide) (by decide)]
    unfold layerNotePieces
    split_ifs
    · exact (chain_comment closes_layerNote).2 (chain_catch style hd _ rest)
    · exact chain_catch style hd _ rest

theorem chain_layers (style : Style) {ds : List Declaration} (hds : ∀ d ∈ ds, Standalone d)
    (expect : Expectation) (rest : Text) :
    Chain expect (ds.flatMap (layerPieces style)) rest := by
  induction ds generalizing expect with
  | nil => trivial
  | cons d ds ih =>
      rw [List.forall_mem_cons] at hds
      rw [List.flatMap_cons, chain_append]
      exact ⟨chain_layerPieces style hds.1 expect _, ih hds.2 _⟩

/-- The declarations of a native block, with what precedes each of them on its line. -/
theorem chain_nativeList {ds : List Declaration} (hds : ∀ d ∈ ds, Standalone d) (hne : ds ≠ [])
    (expect : Expectation) (rest : Text) :
    Chain expect (gap :: ([mark ",", gap].intercalate
      (ds.map fun d => trimmedPieces d.tokens) ++ [mark ";"])) rest := by
  induction ds generalizing expect with
  | nil => exact absurd rfl hne
  | cons d ds ih =>
      rw [List.forall_mem_cons] at hds
      obtain ⟨rest₁, hcalm, hchain⟩ := hds.1.tokens (expect.after gap)
      rw [List.map_cons]
      cases ds with
      | nil =>
          have hstops := @stops_mark ";" (by decide) [] rest
          rw [List.map_nil, List.intercalate_singleton]
          refine ⟨reads_gap _ ?_, ?_⟩
          · rw [spell_append, List.append_assoc]
            exact avoids_trimmedPieces hchain hstops
          · rw [chain_append]
            exact ⟨chain_trimmedPieces hchain hcalm hds.1.closed hstops,
              reads_mark (by decide) _ _, trivial⟩
      | cons d' ds =>
          have hnext := ih hds.2 (by simp) .operand
          rw [List.map_cons, List.intercalate_cons_cons, List.append_assoc, List.append_assoc]
          rw [List.map_cons] at hnext
          have hstops := @stops_mark "," (by decide) (gap ::
            ([mark ",", gap].intercalate (trimmedPieces d'.tokens ::
              ds.map fun d => trimmedPieces d.tokens) ++ [mark ";"])) rest
          refine ⟨reads_gap _ ?_, ?_⟩
          · rw [spell_append, List.append_assoc]
            exact avoids_trimmedPieces hchain hstops
          · rw [chain_append]
            refine ⟨chain_trimmedPieces hchain hcalm hds.1.closed hstops, ?_⟩
            rw [List.cons_append, chain_mark (by decide) (by decide)]
            exact hnext

theorem nativePieces_eq (ds : List Declaration) :
    nativePieces ds = mark "\x7b" :: gap :: letWord :: gap ::
      ([mark ",", gap].intercalate (ds.map fun d => trimmedPieces d.tokens) ++
        [mark ";"]) := by
  simp [nativePieces]

theorem chain_nativePieces {ds : List Declaration} (hds : ∀ d ∈ ds, Standalone d)
    (hne : ds ≠ []) (expect : Expectation) (rest : Text) :
    Chain expect (nativePieces ds) rest := by
  rw [nativePieces_eq, chain_mark (by decide) (by decide)]
  exact ⟨reads_gap _ (Text.avoids_cons.2 (by decide)),
    reads_letWord _ (Text.avoids_cons.2 (by decide)), chain_nativeList hds hne _ rest⟩

end Output

end LetBlocks
