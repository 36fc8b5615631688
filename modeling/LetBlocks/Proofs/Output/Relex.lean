import LetBlocks.Proofs.Node.Lossless
import LetBlocks.Proofs.Output.Closed
import LetBlocks.Proofs.Report.Threading
import LetBlocks.Proofs.Token.Script

/-!
Lexing the output gives exactly the pieces of `Output.written`. The proof follows the tree:
where a let-block stood in the source, an operand is expected after it and after the brace that
opens its body, and so it is in the output. Only a literal that the source left open at the end
of a line is in danger. It stays what it was as long as the line break behind it is not dropped
as a blank, and no script whose literals are closed has one.
-/

namespace LetBlocks

open Region Piece

namespace Output

/-! ### The ends of a let-block -/

theorem exists_openingPieces (style : Style) {header : Header} (h : header.declarations ≠ []) :
    ∃ ps text, openingPieces style header = ps ++ [mark text] ∧ text ∈ marks ∧ text ≠ ")" := by
  rw [openingPieces, if_neg h]
  split_ifs
  · obtain ⟨ds, d, hds⟩ := List.eq_nil_or_concat header.declarations |>.resolve_left h
    obtain ⟨ps, hps⟩ : ∃ ps, layerPieces style d = ps ++ [mark "\x7b"] :=
      ⟨_, (List.append_assoc _ [mark ")"] [mark "\x7b"]).symm⟩
    rw [hds, List.concat_eq_append, List.flatMap_append, List.flatMap_singleton, hps]
    exact ⟨_, "\x7b", (List.append_assoc _ ps _).symm, by decide, by decide⟩
  · exact ⟨_, ";", rfl, by decide, by decide⟩

/-- What is written for a let-block begins with one of two bytes. -/
theorem head?_openingPieces (style : Style) {header : Header} (h : header.declarations ≠ []) :
    ∃ b more, spell (openingPieces style header) = b :: more ∧ b ∈ utf8 "\x7bt" := by
  rw [openingPieces, if_neg h]
  split_ifs
  · obtain ⟨d, ds, hds⟩ := List.exists_cons_of_ne_nil h
    rw [hds, List.flatMap_cons]
    exact ⟨_, _, rfl, by decide⟩
  · exact ⟨_, _, rfl, by decide⟩

theorem closingPieces_eq_replicate (style : Style) {header : Header}
    (h : header.declarations ≠ []) (closing : Option Token) :
    ∃ n, closingPieces style header closing = List.replicate (n + 1) (mark "\x7d") := by
  rw [closingPieces, if_neg h]
  split_ifs
  · obtain ⟨d, ds, hds⟩ := List.exists_cons_of_ne_nil h
    exact ⟨ds.length, by rw [hds]; rfl⟩
  · exact ⟨0, rfl⟩

theorem chain_braces (n : Nat) (expect : Expectation) (rest : Text) :
    Chain expect (List.replicate n (mark "\x7d")) rest := by
  induction n generalizing expect with
  | zero => trivial
  | succ n ih => exact ⟨reads_mark (by decide) _ _, ih _⟩

theorem chain_openingPieces (style : Style) {header : Header} {expect : Expectation}
    {rest : Text} (hheader : Header.IsHeader header.tokens header.declarations)
    (h : Chain expect (copied header.tokens) rest)
    (hclosed : ∀ d ∈ header.declarations, endsOpen d.tokens = false) (rest' : Text) :
    Chain expect (openingPieces style header) rest' := by
  have hds := standalone_of_header hheader h hclosed
  rw [openingPieces, if_neg hheader.ne_nil]
  split_ifs
  · exact chain_layers style hds expect rest'
  · exact chain_nativePieces hds hheader.ne_nil expect rest'

/-- What is written after a body closes it. -/
theorem stops_closingPieces (style : Style) {header : Header} (h : header.declarations ≠ [])
    (closing : Option Token) (rest : Text) :
    Stops (spell (closingPieces style header closing) ++ rest) := by
  obtain ⟨n, hn⟩ := closingPieces_eq_replicate style h closing
  rw [hn]
  exact stops_mark (by decide) _ _

theorem trimsBody_eq_true {header : Header} (h : header.declarations ≠ []) :
    trimsBody header = true :=
  decide_eq_true h

/-- After the opening of a let-block an operand is expected, as it was after its header. -/
theorem afterAll_openingPieces (style : Style) {header : Header} (h : header.declarations ≠ [])
    (expect : Expectation) : expect.afterAll (openingPieces style header) = .operand := by
  obtain ⟨ps, text, hps, hmark, hparen⟩ := exists_openingPieces style h
  rw [hps, afterAll_mark hmark hparen]

theorem after_curly {t : Token} (h : t.kind = .punct)
    (hlexeme : t.lexeme = [Byte.openCurly] ∨ t.lexeme = [Byte.closeCurly])
    (expect : Expectation) :
    expect.after t.toPiece = .operand := by
  rcases hlexeme with hlexeme | hlexeme <;>
    · simp only [Expectation.after, Token.toPiece_kind, h, Token.toPiece_lexeme, hlexeme]
      rfl

theorem afterAll_header {header : Header}
    (h : Header.IsHeader header.tokens header.declarations) (expect : Expectation) :
    expect.afterAll (copied header.tokens) = .operand := by
  generalize header.tokens = tokens at h
  cases h with
  | @intro _ _ brace _ _ _ _ _ _ _ _ _ hbrace =>
      obtain ⟨hkind, hlexeme⟩ := Token.isPunct_iff.1 hbrace
      rw [copied_append, afterAll_append]
      exact after_curly hkind (.inl hlexeme) _

/-- After a let-block an operand is expected too. -/
theorem afterAll_writtenNode (style : Style) (trim first last : Bool) {header : Header}
    {body : List Node} {closing : Option Token} {span : Span} (h : header.declarations ≠ [])
    (expect : Expectation) :
    expect.afterAll (writtenNode style trim first last (.letBlock header body closing span)) =
      .operand := by
  obtain ⟨n, hn⟩ := closingPieces_eq_replicate style h closing
  rw [writtenNode, hn, List.replicate_succ', ← List.append_assoc,
    afterAll_mark (by decide) (by decide)]

theorem afterAll_tokens {header : Header} {body : List Node} {t : Token} {span : Span}
    (h : t.closes? = some .curly) (expect : Expectation) :
    expect.afterAll (copied (Node.tokens (.letBlock header body (some t) span))) =
      .operand := by
  obtain ⟨hkind, hlexeme⟩ := Token.closes?_eq_some_iff.1 h
  rw [Node.tokens, copied_append, afterAll_append]
  exact after_curly hkind (.inr hlexeme) _

/-! ### The tree -/

/-- What may follow a sequence of nodes: the brace of a block if it is trimmed, and nothing
else. -/
def Follows (trim : Bool) (rest : Text) : Prop := if trim then Stops rest else rest = []

/-- A plain run at the end of its sequence. -/
theorem chain_plainPieces_last {expect : Expectation} {trim first : Bool} {ts : List Token}
    {rest rest' : Text} (h : Chain expect (copied ts) rest) (hrest : rest.Calm)
    (hclosed : trim = true → endsOpen ts = false) (hfollows : Follows trim rest') :
    Chain expect (plainPieces trim first true ts) rest' := by
  cases trim with
  | false =>
      obtain rfl : rest' = [] := hfollows
      exact h.move hrest (Text.avoids_nil _) fun p _ => Text.avoids_nil _
  | true =>
      have hstart : Chain expect (copied (if first then trimStart ts else ts)) rest := by
        split_ifs
        · exact chain_trimStart h
        · exact h
      have hend : endsOpen (if first then trimStart ts else ts) = false := by
        split_ifs
        · rw [endsOpen_trimStart, hclosed rfl]
        · exact hclosed rfl
      obtain ⟨rest₁, hcalm, hchain⟩ := chain_trimEnd hstart hrest
      simpa [plainPieces] using
          chain_closedPieces hchain hcalm (endsOpen_eq_false_iff.1 hend) hfollows

/-- Where `let` could follow, the beginning of a written block can. -/
theorem bars_opening {p : Piece} {b : Byte} (h : p.bars 0x6c = false) (hb : b ∈ utf8 "\x7bt") :
    p.bars b = false := by
  have hbytes : ∀ b ∈ utf8 "\x7bt", b.isInlineBlank = false ∧ b.isDigit = false ∧ b ≠ Byte.lf ∧
      b ≠ Byte.slash ∧ b ≠ Byte.star :=
    Text.forall_mem_of_all (by decide)
  obtain ⟨hinline, hdigit, hlf, hslash, hstar⟩ := hbytes b hb
  have hword : Byte.isWord 0x6c = true ∧ Byte.isNumeral 0x6c = true ∧
      Byte.isLineBreak 0x6c = false := by
    decide
  have hclosed : p.isUnclosed = false :=
    not_isUnclosed_of_admits (show p.Admits [0x6c] from Text.avoids_cons.2 h) hword.2.2
  rw [bars_of_not_isUnclosed hclosed, joins] at h ⊢
  cases hkind : p.kind <;> simp_all

theorem spell_block {header : Header} {body nodes : List Node} {closing : Option Token}
    {span : Span} (hheader : Header.IsHeader header.tokens header.declarations)
    (h : ∀ p ∈ copied (Node.tokensAll (.letBlock header body closing span :: nodes)),
      p.kind = .kwLet → p.lexeme = utf8 "let") :
    ∃ more, spell (copied (Node.tokensAll (.letBlock header body closing span :: nodes))) =
      0x6c :: more := by
  rw [Node.tokensAll, Node.tokens, List.append_assoc, List.append_assoc] at *
  generalize header.tokens = tokens at hheader h ⊢
  cases hheader with
  | @intro letToken _ _ _ _ _ _ hlet =>
      have hlexeme := h letToken.toPiece (List.mem_map_of_mem List.mem_cons_self) hlet
      simp only [List.cons_append, copied, List.map_cons, spell_cons, hlexeme]
      exact ⟨_, rfl⟩

theorem spell_writtenFrom_block (style : Style) (trim first : Bool) {header : Header}
    {body nodes : List Node} {closing : Option Token} {span : Span}
    (h : header.declarations ≠ []) :
    ∃ b more,
      spell (writtenFrom style trim first (.letBlock header body closing span :: nodes)) =
        b :: more ∧ b ∈ utf8 "\x7bt" := by
  obtain ⟨b, more, hopening, hb⟩ := head?_openingPieces style h
  rw [writtenFrom, writtenNode, spell_append, spell_append, spell_append, hopening]
  exact ⟨b, _, rfl, hb⟩

/-- A plain run before a let-block. -/
theorem chain_plainPieces_before {expect : Expectation} {trim first : Bool} {ts : List Token}
    {rest rest' : Text} {b : Byte} (h : Chain expect (copied ts) (0x6c :: rest))
    (hb : b ∈ utf8 "\x7bt") : Chain expect (plainPieces trim first false ts) (b :: rest') := by
  have hcalm : ∀ b ∈ utf8 "\x7bt", b.extendsPunct = false := Text.forall_mem_of_all (by decide)
  have hstart : Chain expect (copied (if trim && first then trimStart ts else ts))
      (0x6c :: rest) := by
    split_ifs
    · exact chain_trimStart h
    · exact h
  have hmove : Chain expect (copied (if trim && first then trimStart ts else ts))
      (b :: rest') := by
    refine hstart.move (Text.avoids_cons.2 (by decide)) (Text.avoids_cons.2 (hcalm b hb)) ?_
    intro p hp
    exact Text.avoids_cons.2 (bars_opening (Text.avoids_cons.1 (hstart.last_admits p hp)) hb)
  simpa [plainPieces] using hmove

theorem afterAll_plainPieces_before (expect : Expectation) (trim first : Bool)
    (ts : List Token) :
    expect.afterAll (plainPieces trim first false ts) = expect.afterAll (copied ts) := by
  unfold plainPieces
  dsimp only
  rw [Bool.and_false, if_neg (by simp)]
  split_ifs
  · exact afterAll_trimStart expect ts
  · rfl

theorem calm_closer {t : Token} (h : t.closes? = some .curly) (rest : Text) :
    Text.Calm (spell (copied [t]) ++ rest) := by
  rw [copied, List.map_singleton, spell_cons, Token.toPiece_lexeme,
    (Token.closes?_eq_some_iff.1 h).2]
  exact Text.avoids_cons.2 (by decide)

mutual

/-- What is written for a let-block is read as it was meant, whatever follows. -/
theorem chain_writtenNode (style : Style) :
    ∀ (node : Node) {expect : Expectation} {trim first last : Bool}
    {rest : Text}, node.WellFormed → (∀ run ∈ node.trimmedRuns, endsOpen run = false) →
      node.isPlain = false →
    Chain expect (copied node.tokens) rest → (node.isOpen = true → rest.Calm) →
    ∀ rest', Chain expect (writtenNode style trim first last node) rest'
  | .plain _, _, _, _, _, _, _, _, hplain, _, _ => by cases hplain
  | .letBlock header body closing _, expect, _, _, _, rest, hwell, hruns, _, h, hopen => by
      intro rest'
      obtain ⟨hheader, hclosing, hbody⟩ := hwell
      rw [Node.trimmedRuns, List.forall_mem_append, List.forall_mem_append,
        List.forall_mem_map] at hruns
      obtain ⟨⟨hdeclared, hlast⟩, hinside⟩ := hruns
      rw [Node.tokens, copied_append, chain_append, copied_append, chain_append] at h
      obtain ⟨⟨hopening, hinner⟩, -⟩ := h
      rw [afterAll_header hheader] at hinner
      -- after the body comes its brace, or, in a block that was never closed, what follows the
      -- block
      have hcalm : Text.Calm (spell (copied closing.toList) ++ rest) := by
        cases closing with
        | none => exact hopen rfl
        | some t => exact calm_closer (hclosing t rfl).1 rest
      have hfollows : Follows (trimsBody header)
          (spell (closingPieces style header closing) ++ rest') := by
        rw [Follows, if_pos (trimsBody_eq_true hheader.ne_nil)]
        exact stops_closingPieces style hheader.ne_nil closing rest'
      obtain ⟨n, hn⟩ := closingPieces_eq_replicate style hheader.ne_nil closing
      rw [writtenNode, chain_append, chain_append, afterAll_openingPieces style hheader.ne_nil]
      refine ⟨⟨chain_openingPieces style hheader hopening hdeclared _, ?_⟩, ?_⟩
      · exact chain_writtenFrom style body hbody hinside (fun _ => hlast) hinner hcalm hfollows
      rw [hn]
      exact chain_braces _ _ rest'

/-- A sequence of nodes is read as it was meant. -/
theorem chain_writtenFrom (style : Style) :
    ∀ (nodes : List Node) {expect : Expectation} {trim first : Bool}
    {rest rest' : Text}, Node.WellFormedAll nodes →
      (∀ run ∈ Node.trimmedRunsAll nodes, endsOpen run = false) →
    (trim = true → ∀ run ∈ Node.lastRun nodes, endsOpen run = false) →
    Chain expect (copied (Node.tokensAll nodes)) rest → rest.Calm → Follows trim rest' →
    Chain expect (writtenFrom style trim first nodes) rest'
  | [], _, _, _, _, _, _, _, _, _, _, _ => trivial
  | [.plain ts], expect, trim, first, rest, rest', hwell, _, hlast, h, hrest, hfollows => by
      rw [Node.tokensAll, Node.tokensAll, Node.tokens, List.append_nil] at h
      rw [writtenFrom, writtenFrom, writtenNode, List.append_nil, List.isEmpty_nil]
      exact chain_plainPieces_last h hrest
        (fun htrim => hlast htrim ts (List.mem_singleton_self ts)) hfollows
  | .plain _ :: .plain _ :: _, _, _, _, _, _, hwell, _, _, _, _, _ =>
      absurd ⟨rfl, rfl⟩ (hwell.2.2.1 _ rfl)
  | .plain ts :: .letBlock header body closing span :: nodes, expect, trim, first, rest, rest',
      hwell, hruns, hlast, h, hrest, hfollows => by
      obtain ⟨-, -, -, hnodes⟩ := hwell
      have hheader := hnodes.1.1
      rw [Node.tokensAll, Node.tokens, copied_append, chain_append] at h
      obtain ⟨more, hmore⟩ := spell_block hheader h.2.lexeme_of_kwLet
      obtain ⟨b, more', hspell, hb⟩ := spell_writtenFrom_block style trim false hheader.ne_nil
      rw [writtenFrom, writtenNode, List.isEmpty_cons, chain_append,
        afterAll_plainPieces_before, hspell]
      rw [hmore] at h
      exact ⟨chain_plainPieces_before h.1 hb,
        chain_writtenFrom style _ hnodes hruns hlast h.2 hrest hfollows⟩
  | .letBlock header body closing span :: nodes, expect, trim, first, rest, rest', hwell,
      hruns, hlast, h, hrest, hfollows => by
      obtain ⟨hblock, hend, -, hnodes⟩ := hwell
      rw [Node.trimmedRunsAll, List.forall_mem_append] at hruns
      rw [Node.tokensAll, copied_append, chain_append] at h
      rw [writtenFrom, chain_append, afterAll_writtenNode style _ _ _ hblock.1.ne_nil]
      refine ⟨chain_writtenNode style _ hblock hruns.1 rfl h.1 ?_ _, ?_⟩
      · intro hopen
        rw [hend hopen]
        exact hrest
      -- nothing comes after an open block, and after a closed one both texts expect the same
      · cases closing with
        | none =>
            rw [hend rfl]
            trivial
        | some t =>
            have hnext := h.2
            rw [afterAll_tokens (hblock.2.1 t rfl).1] at hnext
            exact chain_writtenFrom style nodes hnodes hruns.2
              (fun htrim run hrun => hlast htrim run (Node.mem_lastRun_cons hrun)) hnext hrest
                hfollows

end

/-! ### Whole scripts -/

theorem writtenFrom_untrimmed (style : Style) (first : Bool) (nodes : List Node) :
    writtenFrom style false first nodes = written style nodes := by
  cases nodes with
  | nil => rfl
  | cons node nodes => cases node <;> rfl

theorem written_plain (style : Style) (ts : List Token) (nodes : List Node) :
    written style (.plain ts :: nodes) = copied ts ++ written style nodes := by
  rw [written, writtenFrom, writtenFrom_untrimmed, writtenNode]
  rfl

/-- The output begins with the byte that the source begins with, or with a let-block. -/
theorem avoids_written (style : Style) {nodes : List Node} {q : Byte → Bool}
    {expect : Expectation} {rest : Text} (hwell : Node.WellFormedAll nodes)
    (h : Chain expect (copied (Node.tokensAll nodes)) rest)
    (havoids : Text.Avoids q (spell (copied (Node.tokensAll nodes))))
    (hopening : q 0x6c = false → ∀ b ∈ utf8 "\x7bt", q b = false) :
    Text.Avoids q (spell (written style nodes)) := by
  cases nodes with
  | nil => exact Text.avoids_nil _
  | cons node nodes =>
      cases node with
      | plain ts =>
          obtain ⟨t, ts, rfl⟩ := List.exists_cons_of_ne_nil hwell.1
          obtain ⟨b, more, hlexeme⟩ := List.exists_cons_of_ne_nil h.1.lexeme_ne_nil
          rw [written_plain]
          rw [Node.tokensAll, Node.tokens] at havoids
          simp only [copied, List.cons_append, List.map_cons, spell_cons, hlexeme] at havoids ⊢
          exact havoids
      | letBlock header body closing span =>
          obtain ⟨more, hmore⟩ := spell_block hwell.1.1 h.lexeme_of_kwLet
          obtain ⟨b, more', hspell, hb⟩ :=
            spell_writtenFrom_block style false true hwell.1.1.ne_nil
          rw [hmore] at havoids
          rw [written, hspell]
          exact Text.avoids_cons.2 (hopening (Text.avoids_cons.1 havoids) b hb)

/-- A token that is not `let` can be taken away from the beginning of a tree. -/
theorem exists_written_cons (style : Style) {nodes : List Node} {t : Token} {ts : List Token}
    (hwell : Node.WellFormedAll nodes) (htokens : Node.tokensAll nodes = t :: ts)
    (hkind : t.kind ≠ .kwLet) :
    ∃ nodes', Node.WellFormedAll nodes' ∧ Node.tokensAll nodes' = ts ∧
      Node.trimmedRunsAll nodes' = Node.trimmedRunsAll nodes ∧
      written style nodes = t.toPiece :: written style nodes' := by
  cases nodes with
  | nil => cases htokens
  | cons node nodes =>
      cases node with
      | plain us =>
          obtain ⟨u, us, rfl⟩ := List.exists_cons_of_ne_nil hwell.1
          rw [Node.tokensAll, Node.tokens, List.cons_append, List.cons.injEq] at htokens
          obtain ⟨rfl, rfl⟩ := htokens
          cases us with
          | nil => exact ⟨nodes, hwell.2.2.2, rfl, rfl, written_plain style _ _⟩
          | cons v us =>
              refine ⟨.plain (v :: us) :: nodes, ⟨by simp [Node.WellFormed], hwell.2⟩, rfl,
                rfl, ?_⟩
              rw [written_plain, written_plain]
              rfl
      | letBlock header body closing span =>
          have hheader := hwell.1.1
          rw [Node.tokensAll, Node.tokens] at htokens
          generalize header.tokens = tokens at hheader htokens
          cases hheader with
          | intro hlet =>
              cases htokens
              exact absurd hlet hkind

/-- A hashbang line belongs to the first plain run, and the tree without it is one of its
own. -/
theorem exists_written_hashbang (style : Style) {nodes : List Node} {p : Piece}
    {ps : List Piece} (hwell : Node.WellFormedAll nodes)
    (hpieces : copied (Node.tokensAll nodes) = p :: ps) (hp : p.IsHashbang) :
    ∃ nodes', Node.WellFormedAll nodes' ∧ copied (Node.tokensAll nodes') = ps ∧
      Node.trimmedRunsAll nodes' = Node.trimmedRunsAll nodes ∧
      written style nodes = p :: written style nodes' := by
  obtain ⟨t, ts, htokens, rfl, rfl⟩ := List.map_eq_cons_iff.1 hpieces
  have hkind : t.kind ≠ .kwLet := by
    rw [← t.toPiece_kind, hp.1]
    decide
  obtain ⟨nodes', hwell', rfl, hruns, hwritten⟩ :=
    exists_written_cons style hwell htokens hkind
  exact ⟨nodes', hwell', rfl, hruns, hwritten⟩

/-- The output of a script without a hashbang line does not get one. -/
theorem not_hashbang_written (style : Style) {nodes : List Node} {expect : Expectation}
    {rest : Text} (hwell : Node.WellFormedAll nodes)
    (h : Chain expect (copied (Node.tokensAll nodes)) rest)
    (hnot : ¬ utf8 "#!" <+: spell (copied (Node.tokensAll nodes))) :
    ¬ utf8 "#!" <+: spell (written style nodes) := by
  have hbytes : utf8 "#!" = [0x23, 0x21] := by decide
  rw [hbytes] at hnot ⊢
  cases nodes with
  | nil => simp [written, writtenFrom]
  | cons node nodes =>
      cases node with
      | plain ts =>
          rw [Node.tokensAll, Node.tokens, copied_append, spell_append] at hnot
          rw [Node.tokensAll, Node.tokens, copied_append, chain_append] at h
          rw [written_plain, spell_append]
          obtain ⟨t, ts, rfl⟩ := List.exists_cons_of_ne_nil hwell.1
          obtain ⟨b, more, hlexeme⟩ := List.exists_cons_of_ne_nil h.1.1.lexeme_ne_nil
          have hspell : spell (copied (t :: ts)) = b :: (more ++ spell (copied ts)) := by
            rw [copied, List.map_cons, spell_cons, hlexeme, List.cons_append]
            rfl
          rw [hspell] at hnot ⊢
          cases htail : more ++ spell (copied ts) with
          | cons c tail => simpa [htail] using hnot
          | nil =>
              -- the run is one byte long, and the second byte of the output comes from what
              -- follows it
              simp only [htail, List.cons_append, List.nil_append, List.cons_prefix_cons,
                not_and] at hnot ⊢
              intro hb hbang
              have havoids : Text.Avoids (· == 0x21)
                  (spell (copied (Node.tokensAll nodes))) := by
                cases hsource : spell (copied (Node.tokensAll nodes)) with
                | nil => exact Text.avoids_nil _
                | cons c tail =>
                    rw [hsource, List.cons_prefix_cons] at hnot
                    refine Text.avoids_cons.2 (beq_eq_false_iff_ne.2 ?_)
                    rintro rfl
                    exact hnot hb ⟨rfl, List.nil_prefix⟩
              obtain ⟨tail, htail⟩ := hbang
              have houtput := avoids_written style hwell.2.2.2 h.2 havoids fun _ =>
                Text.forall_mem_of_all (by decide)
              rw [← htail, List.cons_append, Text.avoids_cons] at houtput
              exact absurd houtput (by decide)
      | letBlock header body closing span =>
          obtain ⟨b, more, hspell, hb⟩ :=
            spell_writtenFrom_block style false true hwell.1.1.ne_nil
          rw [written, hspell, List.cons_prefix_cons]
          rintro ⟨rfl, -⟩
          exact absurd hb (by decide)

/-- The output of a script is a script again. -/
theorem script_written (style : Style) {nodes : List Node} (hwell : Node.WellFormedAll nodes)
    (hruns : ∀ run ∈ Node.trimmedRunsAll nodes, endsOpen run = false)
    (h : Script (copied (Node.tokensAll nodes))) : Script (written style nodes) := by
  generalize hpieces : copied (Node.tokensAll nodes) = pieces at h
  cases h with
  | plain hnot hchain =>
      subst hpieces
      exact .plain (not_hashbang_written style hwell hchain hnot)
        (chain_writtenFrom style nodes hwell hruns (by simp) hchain (Text.avoids_nil _) rfl)
  | @hashbang p ps hp hadmits hchain =>
      obtain ⟨nodes', hwell', rfl, hruns', hwritten⟩ :=
        exists_written_hashbang style hwell hpieces hp
      rw [← hruns'] at hruns
      rw [hwritten]
      exact .hashbang hp (avoids_written style hwell' hchain hadmits fun h b hb =>
        bars_opening h hb)
        (chain_writtenFrom style nodes' hwell' hruns (by simp) hchain (Text.avoids_nil _) rfl)

theorem compile_eq_spell (style : Style) (text : Text) :
    compile style text = spell
      (written style (Node.parse (Token.lex (Source.ofText text)).tokens).nodes) := by
  rw [spell_written, ← render_eq_write, compile_eq_render]

/-- The tokens of a tree make up the script that it was read from. -/
theorem script_parse (text : Text) :
    Script
      (copied
        (Node.tokensAll (Node.parse (Token.lex (Source.ofText text)).tokens).nodes)) := by
  obtain ⟨ts, -, htokens, -, hscript⟩ := Token.exists_lex_script (Source.ofText text)
  rw [(Node.parse_spec _).2, htokens]
  exact hscript

/-- The output is read as it was meant, as long as no run that is trimmed ends in an open
literal. -/
theorem stream_compile_eq_settled (style : Style) {text : Text}
    (h : ∀ run ∈
      Node.trimmedRunsAll (Node.parse (Token.lex (Source.ofText text)).tokens).nodes,
      endsOpen run = false) :
    stream (compile style text) =
      (written style (Node.parse (Token.lex (Source.ofText text)).tokens).nodes).map
        settled := by
  rw [compile_eq_spell,
    stream_spell (script_written style (Node.parse_spec _).1 h (script_parse text))]

/-- The tree of a script without open literals has its pieces. -/
theorem copied_tokensAll_parse {text : Text}
    (h : (Token.lex (Source.ofText text)).diagnostics = []) :
    copied (Node.tokensAll (Node.parse (Token.lex (Source.ofText text)).tokens).nodes) =
      stream text := by
  obtain ⟨ts, -, htokens, hpieces⟩ := Token.exists_lex (Token.diagnostics_lex_eq_nil_iff.1 h)
  rw [(Node.parse_spec _).2, htokens, copied, hpieces]

theorem allClosed_stream {text : Text}
    (h : (Token.lex (Source.ofText text)).diagnostics = []) :
    AllClosed (stream text) := by
  intro p hp
  have hclosed := Token.diagnostics_lex_eq_nil_iff.1 h p hp
  exact ⟨hclosed, by simpa [hclosed] using closed_of_mem_stream p hp⟩

theorem stream_compile (style : Style) {text : Text}
    (h : (Token.lex (Source.ofText text)).diagnostics = []) :
    (∀ p ∈ stream (compile style text), p.closed = true) ∧
      stream (compile style text) =
        written style (Node.parse (Token.lex (Source.ofText text)).tokens).nodes := by
  have hwell := (Node.parse_spec (Token.lex (Source.ofText text)).tokens).1
  have htokens := allClosed_stream h
  rw [← copied_tokensAll_parse h] at htokens
  have hruns : ∀ run ∈
      Node.trimmedRunsAll (Node.parse (Token.lex (Source.ofText text)).tokens).nodes,
      endsOpen run = false :=
    fun run hrun => endsOpen_of_allClosed
      (allClosed_of_subset htokens (Node.trimmedRunsAll_subset hwell run hrun))
  have hwritten : AllClosed
      (written style (Node.parse (Token.lex (Source.ofText text)).tokens).nodes) :=
    allClosed_writtenFrom style false true hwell htokens
  rw [stream_compile_eq_settled style hruns, hwritten.map_settled]
  exact ⟨fun p hp => (hwritten p hp).1, rfl⟩

end Output

/-- The output of a script whose literals are closed has no open literals either, and its
tokens are the pieces that were meant, with nothing joined and nothing taken apart. -/
theorem lex_compile_eq_written (style : Style) (text : Text)
    (h : (Token.lex (Source.ofText text)).diagnostics = []) :
    (Token.lex (Source.ofText (compile style text))).diagnostics = [] ∧
      (Token.lex (Source.ofText (compile style text))).tokens.map Token.toPiece =
        Output.written style (Node.parse (Token.lex (Source.ofText text)).tokens).nodes ++
          [{ kind := .eof, lexeme := [] }] := by
  obtain ⟨hscript, hstream⟩ := Output.stream_compile style h
  obtain ⟨ts, htokens, -, hpieces⟩ := Token.exists_lex hscript
  refine ⟨Token.diagnostics_lex_eq_nil_iff.2 hscript, ?_⟩
  rw [htokens, List.map_append, hpieces, hstream]
  rfl

/-- An initializer that starts with a comment and ends with one, in front of a regular
expression. -/
theorem lex_compile_eq_written_comments :
    let style : Style := { es3 := true, annotate := true }
    let text := utf8 "let (a = /* 1 */ 2 // 3\n) \x7b /x/ \x7d"
    (Token.lex (Source.ofText text)).diagnostics = [] ∧
      (Token.lex (Source.ofText (compile style text))).tokens.map Token.toPiece =
        Output.written style (Node.parse (Token.lex (Source.ofText text)).tokens).nodes ++
          [{ kind := .eof, lexeme := [] }] := by
  have h :
      (Token.lex
        (Source.ofText (utf8 "let (a = /* 1 */ 2 // 3\n) \x7b /x/ \x7d"))).diagnostics =
      [] := by
    decide +kernel
  exact ⟨h, (lex_compile_eq_written _ _ h).2⟩

end LetBlocks
