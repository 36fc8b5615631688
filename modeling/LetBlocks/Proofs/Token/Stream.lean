import LetBlocks.Proofs.Region.Readers
import LetBlocks.Proofs.Token.Code
import LetBlocks.Proofs.Token.Tiling

/-!
The lexer works in two passes: the script is divided into regions, and then each region is cut.
The two passes agree on where things end, so that one pass gives the same pieces: at each
place, read the literal that opens there or else the piece of code that comes first. What to
expect next depends on the pieces read so far and on nothing else. The one pass,
`Piece.stream`, is the form in which the other modules reason about lexing.
-/

namespace LetBlocks

namespace Region

def Expectation.after (expect : Expectation) (p : Piece) : Expectation :=
  match p.kind with
  | .eof | .whitespace | .newline | .lineComment | .blockComment => expect
  | .number | .string | .template | .regex => .operator
  | .identifier | .kwLet => if operandKeywords.contains p.lexeme then .operand else .operator
  | .punct =>
    if p.lexeme = [Byte.closeParen] ∨ p.lexeme = [Byte.closeSquare] then .operator
    else .operand

end Region

open Region

namespace Piece

def literalKind (kind : Region.Kind) : Token.Kind := (Token.Kind.ofRegion? kind).getD .eof

def next? (expect : Expectation) : Text → Option (Piece × Text)
  | [] => none
  | b :: rest =>
    match readLiteral? expect ⟨0, b :: rest⟩ with
    | some (kind, ending) =>
      some
        ({ kind := literalKind kind
           lexeme := (b :: rest).take ending.pos
           closed := ending.closed },
        ending.rest)
    | none =>
      let lead := leading b rest
      some ({ kind := lead.1, lexeme := b :: rest.take lead.2 }, rest.drop lead.2)

theorem length_next?_lt {expect : Expectation} {text rest : Text} {p : Piece}
    (h : next? expect text = some (p, rest)) : rest.length < text.length := by
  unfold next? at h
  split at h
  · cases h
  · next b more =>
    split at h
    · next kind ending hread =>
      cases h
      exact length_readLiteral?_lt hread
    · cases h
      simp only [List.length_drop, List.length_cons]
      omega

def streamFrom (expect : Expectation) (text : Text) : List Piece :=
  match _h : next? expect text with
  | none => []
  | some (p, rest) => p :: streamFrom (expect.after p) rest
termination_by text.length
decreasing_by exact length_next?_lt _h

/-- The pieces of a script. A first line that starts with `#!` is a comment. -/
def stream (text : Text) : List Piece :=
  if (utf8 "#!").isPrefixOf text then
    { kind := .lineComment, lexeme := text.takeWhile (!·.isLineBreak) } ::
      streamFrom .operand (text.dropWhile (!·.isLineBreak))
  else streamFrom .operand text

@[simp] theorem streamFrom_nil (expect : Expectation) : streamFrom expect [] = [] := by
  rw [streamFrom]
  rfl

theorem streamFrom_of_next? {expect : Expectation} {text rest : Text} {p : Piece}
    (h : next? expect text = some (p, rest)) :
    streamFrom expect text = p :: streamFrom (expect.after p) rest := by
  rw [streamFrom]
  split <;> simp_all

/-! ### What comes first -/

/-- A literal comes first. -/
theorem next?_of_literal {expect : Expectation} {text : Text} {pos : Nat} {kind : Region.Kind}
    {ending : Ending} (h : readLiteral? expect ⟨pos, text⟩ = some (kind, ending)) :
    ∃ used, used ≠ [] ∧ text = used ++ ending.rest ∧ ending.pos = pos + used.length ∧
      next? expect text =
        some ({ kind := literalKind kind, lexeme := used, closed := ending.closed },
          ending.rest) := by
  obtain ⟨used, hne, hused, hsettles⟩ := readLiteral?_settles h
  have hself := hsettles pos ending.rest (.inl rfl)
  have hzero := hsettles 0 ending.rest (.inl rfl)
  rw [← hused, h] at hself
  rw [← hused] at hzero
  have hpos : ending.pos = pos + used.length := congrArg (·.2.pos) (Option.some.inj hself)
  refine ⟨used, hne, hused, hpos, ?_⟩
  obtain ⟨b, more, hcons⟩ := List.exists_cons_of_ne_nil (show text ≠ [] by simp [hused, hne])
  rw [hcons] at hzero ⊢
  rw [next?, hzero]
  simp [← hcons, hused]

/-- A piece of code comes first. -/
theorem next?_of_codePiece {expect : Expectation} {kind : Token.Kind} {lexeme rest : Text}
    (h : CodePiece kind lexeme rest) (hnone : readLiteral? expect ⟨0, lexeme ++ rest⟩ = none) :
    next? expect (lexeme ++ rest) = some ({ kind, lexeme }, rest) := by
  obtain ⟨b, more, rfl⟩ := h.exists_cons
  rw [List.cons_append] at hnone ⊢
  rw [next?, hnone, leading_eq_iff.2 h]
  simp

end Piece

/-! ### Scanning over code -/

namespace Region

theorem scanFrom_pass {codeStart pos : Nat} {expect : Expectation} {found : Array Region}
    {b : Byte} {rest : Text} (h : readLiteral? expect ⟨pos, b :: rest⟩ = none) :
    scanFrom codeStart expect found ⟨pos, b :: rest⟩ =
      scanFrom codeStart (passCode expect ⟨pos, b :: rest⟩).1 found
        (passCode expect ⟨pos, b :: rest⟩).2 := by
  rw [scanFrom]
  split <;> simp_all

theorem scanFrom_literal {codeStart pos : Nat} {expect : Expectation} {found : Array Region}
    {text : Text} {kind : Region.Kind} {ending : Ending}
    (h : readLiteral? expect ⟨pos, text⟩ = some (kind, ending)) :
    scanFrom codeStart expect found ⟨pos, text⟩ =
      scanFrom ending.pos (expect.afterLiteral kind)
        ((pushCode codeStart pos found).push
          { kind, start := pos, stop := ending.pos, closed := ending.closed })
            ending.toCursor := by
  cases text with
  | nil => simp [readLiteral?, readFlat?] at h
  | cons b rest =>
      rw [scanFrom]
      split <;> simp_all

theorem toList_scanFrom (codeStart : Nat) (expect : Expectation) (found : Array Region)
    (c : Cursor) :
    (scanFrom codeStart expect found c).toList =
      found.toList ++ (scanFrom codeStart expect #[] c).toList := by
  induction hlen : c.rest.length using
    Nat.strong_induction_on generalizing codeStart expect found c with
  | _ n ih =>
      obtain ⟨pos, text⟩ := c
      cases text with
      | nil =>
          rw [scanFrom, scanFrom, pushCode, pushCode]
          split_ifs <;> simp
      | cons b rest =>
          cases hread : readLiteral? expect ⟨pos, b :: rest⟩ with
          | none =>
              rw [scanFrom_pass hread, scanFrom_pass hread]
              exact ih _ (hlen ▸ length_passCode_lt rfl) _ _ _ _ rfl
          | some read =>
              obtain ⟨kind, ending⟩ := read
              have hlt : ending.rest.length < n := hlen ▸ length_readLiteral?_lt hread
              rw [scanFrom_literal hread, scanFrom_literal hread, ih _ hlt _ _ _ _ rfl,
                ih _ hlt _ _ (Array.push _ _) _ rfl]
              simp only [pushCode]
              split_ifs <;> simp

/-- The scan passes `code` without finding a literal in it. -/
def Passes (expect : Expectation) (code : Text) (expect' : Expectation) (rest : Text) : Prop :=
  ∀ codeStart found pos, scanFrom codeStart expect found ⟨pos, code ++ rest⟩ =
    scanFrom codeStart expect' found ⟨pos + code.length, rest⟩

namespace Passes

variable {expect expect' expect'' : Expectation} {code code' rest : Text} {b : Byte}

theorem nil : Passes expect [] expect rest := fun _ _ _ => rfl

theorem append (h : Passes expect code expect' (code' ++ rest))
    (h' : Passes expect' code' expect'' rest) :
    Passes expect (code ++ code') expect'' rest := by
  intro codeStart found pos
  rw [List.append_assoc, h, h', List.length_append, Nat.add_assoc]

/-- A byte that begins no literal is passed as code. -/
theorem of_passCode (hb : opensLiteral b = false)
    (hpass : ∀ pos, passCode expect ⟨pos, b :: code ++ rest⟩ =
      (expect', ⟨pos + (b :: code).length, rest⟩)) :
    Passes expect (b :: code) expect' rest := by
  intro codeStart found pos
  rw [List.cons_append, scanFrom_pass (readLiteral?_of_not_opensLiteral hb expect pos _),
    ← List.cons_append, hpass]

theorem blanks (hcode : ∀ b ∈ code, b.isBlank = true) : Passes expect code expect rest := by
  induction code with
  | nil => exact nil
  | cons b code ih =>
      rw [List.forall_mem_cons] at hcode
      have hb : Passes expect [b] expect (code ++ rest) :=
        of_passCode (opensLiteral_eq_false hcode.1 (by decide)) fun _ => passCode_blank hcode.1
      exact hb.append (ih hcode.2)

theorem number (hb : b.isDigit = true) (hcode : ∀ x ∈ code, x.isNumeral = true)
    (hrest : Text.Avoids Byte.isNumeral rest) : Passes expect (b :: code) .operator rest :=
  of_passCode (opensLiteral_eq_false hb (by decide)) fun _ => passCode_number hb hcode hrest

theorem word (hb : b.isWordStart = true) (hcode : ∀ x ∈ code, x.isWord = true)
    (hrest : Text.Avoids Byte.isWord rest) :
    Passes expect (b :: code) (if b :: code ∈ operandKeywords then .operand else .operator)
      rest :=
  of_passCode (opensLiteral_eq_false hb (by decide)) fun _ => passCode_word hb hcode hrest

/-- After its first byte a punctuator is passed byte by byte, and an operand is expected all
the time. -/
theorem operatorTail (hcode : ∀ b ∈ code, b.isBlank = false ∧ b.isWord = false ∧
      opensLiteral b = false ∧ b ≠ Byte.closeParen ∧ b ≠ Byte.closeSquare) :
    Passes .operand code .operand rest := by
  induction code with
  | nil => exact nil
  | cons b code ih =>
      rw [List.forall_mem_cons] at hcode
      obtain ⟨⟨hblank, hword, hopens, hparen, hsquare⟩, hcode⟩ := hcode
      have hb : Passes .operand [b] .operand (code ++ rest) := by
        refine of_passCode hopens fun pos => ?_
        rw [List.singleton_append, passCode_other hblank hword]
        simp [hparen, hsquare]
      exact hb.append (ih hcode)

end Passes

theorem operators_bytes : ∀ o ∈ Piece.operators,
    (∀ b ∈ o.tail, b.isBlank = false ∧ b.isWord = false ∧ opensLiteral b = false ∧
      b ≠ Byte.closeParen ∧ b ≠ Byte.closeSquare) ∧
    o.head? ≠ some Byte.closeParen ∧ o.head? ≠ some Byte.closeSquare := by
  have htail : ∀ o ∈ Piece.operators,
      o.tail.all (fun b => decide (b.isBlank = false ∧ b.isWord = false ∧
      opensLiteral b = false ∧ b ≠ Byte.closeParen ∧ b ≠ Byte.closeSquare)) = true := by
    decide
  have hhead : ∀ o ∈ Piece.operators, o.head? ≠ some Byte.closeParen ∧
      o.head? ≠ some Byte.closeSquare := by
    decide
  exact fun o ho => ⟨Text.forall_mem_of_all (htail o ho), hhead o ho⟩

theorem after_word {expect : Expectation} {kind : Token.Kind} {lexeme : Text}
    (h : kind = Piece.wordKind lexeme) :
    expect.after { kind, lexeme } =
      if lexeme ∈ operandKeywords then .operand else .operator := by
  subst h
  unfold Piece.wordKind
  split_ifs <;> simp_all [Expectation.after]

/-- The scan passes each piece of code that the lexer will cut. -/
theorem passes_of_codePiece {expect : Expectation} {kind : Token.Kind} {lexeme rest : Text}
    (h : Piece.CodePiece kind lexeme rest)
    (hnone : ∀ pos, readLiteral? expect ⟨pos, lexeme ++ rest⟩ = none) :
    Passes expect lexeme (expect.after { kind, lexeme }) rest := by
  cases h with
  | lf => exact .blanks (Text.forall_mem_of_all (by decide))
  | crlf => exact .blanks (Text.forall_mem_of_all (by decide))
  | cr => exact .blanks (Text.forall_mem_of_all (by decide))
  | blanks hb hmore _ =>
      apply Passes.blanks
      rw [List.forall_mem_cons]
      exact ⟨by simp [Byte.isBlank, hb], fun x hx => by simp [Byte.isBlank, hmore x hx]⟩
  | number hb hmore hrest => exact .number hb hmore hrest
  | @fraction d more _ hb hmore hrest =>
      have hdot : Passes expect [Byte.dot] .operand (d :: more ++ rest) :=
        .of_passCode (by decide) fun _ => passCode_other (by decide) (by decide)
      exact hdot.append (.number hb hmore hrest)
  | word hkind hb hmore hrest =>
      rw [after_word hkind]
      exact .word hb hmore hrest
  | @punct b more _ hblank hword hdot hlength =>
      have hfirst : Passes expect [b]
          (if b = Byte.closeParen ∨ b = Byte.closeSquare then .operator else .operand)
          (more ++ rest) := by
        intro codeStart found pos
        have hb := hnone pos
        rw [List.cons_append] at hb
        rw [List.singleton_append, scanFrom_pass hb, passCode_other hblank hword,
          List.length_singleton]
      cases more with
      | nil => simpa [Expectation.after] using hfirst
      | cons c more =>
          have hmem := Piece.mem_operators hlength (by simp)
          obtain ⟨htail, hparen, hsquare⟩ := operators_bytes _ hmem
          have hoperand : ¬ (b = Byte.closeParen ∨ b = Byte.closeSquare) := by
            rintro (rfl | rfl)
            · exact hparen rfl
            · exact hsquare rfl
          rw [if_neg hoperand] at hfirst
          simpa [Expectation.after] using hfirst.append (.operatorTail htail)

end Region

/-! ### One pass instead of two -/

namespace Piece

theorem codePieces_append {kind : Token.Kind} {lexeme rest : Text}
    (h : CodePiece kind lexeme rest) :
    codePieces (lexeme ++ rest) = { kind, lexeme } :: codePieces rest := by
  obtain ⟨b, more, rfl⟩ := h.exists_cons
  rw [List.cons_append, codePieces_cons, leading_eq_iff.2 h]
  simp

theorem calm_of_literal {expect : Expectation} {rest : Text}
    (h : rest = [] ∨ ∀ pos, readLiteral? expect ⟨pos, rest⟩ ≠ none) : rest.Calm := by
  rcases h with rfl | h
  · exact Text.avoids_nil _
  · cases rest with
    | nil => exact Text.avoids_nil _
    | cons b rest =>
        have hb := opensLiteral_of_readLiteral? (h 0)
        simp only [opensLiteral, Bool.or_eq_true, beq_iff_eq] at hb
        refine Text.avoids_cons.2 ?_
        rcases hb with ((rfl | rfl) | rfl) | rfl <;> decide

/-- The code up to the next literal is passed by the scan, and both ways of lexing cut it into
the same pieces. -/
theorem exists_codeSpan (expect : Expectation) (text : Text) :
    ∃ code rest expect', text = code ++ rest ∧ Passes expect code expect' rest ∧
      (rest = [] ∨ ∀ pos, readLiteral? expect' ⟨pos, rest⟩ ≠ none) ∧
      streamFrom expect text = codePieces code ++ streamFrom expect' rest := by
  induction hlen : text.length using Nat.strong_induction_on generalizing expect text with
  | _ n ih =>
      cases text with
      | nil => exact ⟨[], [], expect, rfl, .nil, .inl rfl, by simp⟩
      | cons b rest =>
          by_cases hnone : readLiteral? expect ⟨0, b :: rest⟩ = none
          · obtain ⟨kind, more, rest, rfl, hpiece⟩ := exists_codePiece b rest
            rw [← List.cons_append] at hnone hlen ⊢
            have hnone' : ∀ pos, readLiteral? expect ⟨pos, b :: more ++ rest⟩ = none := by
              intro pos
              rw [List.cons_append, readLiteral?_eq_none_iff] at hnone ⊢
              exact hnone
            have hlt : rest.length < n := by
              simp only [← hlen, List.length_append, List.length_cons]
              omega
            obtain ⟨code, rest', expect', rfl, hpasses, hliteral, hstream⟩ :=
              ih rest.length hlt (expect.after { kind, lexeme := b :: more }) rest rfl
            -- the piece does not change if what it was cut from ends before the literal
            have hshort : CodePiece kind (b :: more) code :=
              hpiece.of_append_calm (calm_of_literal hliteral)
            refine ⟨b :: more ++ code, rest', expect', by simp, ?_, hliteral, ?_⟩
            · exact (passes_of_codePiece hpiece hnone').append hpasses
            · rw [streamFrom_of_next? (next?_of_codePiece hpiece hnone), hstream,
                codePieces_append hshort, List.cons_append]
          · refine ⟨[], b :: rest, expect, rfl, .nil, .inr ?_, by simp⟩
            intro pos hpos
            exact hnone (readLiteral?_eq_none_iff.2 (readLiteral?_eq_none_iff.1 hpos))

/-- A region that begins where the last one ended is cut as it stands. -/
theorem cutFrom_region {length pos : Nat} {text rest : Text} {done : Array Piece}
    {region : Region} {regions : List Region} (htext : text ≠ []) (hstart : region.start = pos)
    (hstop : region.stop = pos + text.length) (hlength : pos + text.length ≤ length) :
    cutFrom length pos (text ++ rest) done (region :: regions) =
      cutFrom length (pos + text.length) rest (done ++ regionPieces region text) regions := by
  have hpos : 0 < text.length := List.length_pos_iff.2 htext
  have hmax : max region.start pos = pos := by omega
  have hmin : min region.stop length = pos + text.length := by omega
  rw [cutFrom_cons (by omega), hmax, hmin]
  simp

/-- The code before a literal is cut as it stands, if there is any. -/
theorem cutFrom_pushCode {length pos : Nat} {code rest : Text} {done : Array Piece}
    {regions : List Region} (hlength : pos + code.length ≤ length) :
    cutFrom length pos (code ++ rest) done
        ((pushCode pos (pos + code.length) #[]).toList ++ regions) =
      cutFrom length (pos + code.length) rest (done ++ codePieces code) regions := by
  unfold pushCode
  split_ifs with hcode
  · exact cutFrom_region (List.ne_nil_of_length_pos (by omega)) rfl rfl hlength
  · obtain rfl : code = [] := List.length_eq_zero_iff.1 (by omega)
    simp

theorem regionPieces_literal {region : Region} (h : region.kind ≠ .code) (text : Text) :
    regionPieces region text =
      [{ kind := literalKind region.kind, lexeme := text, closed := region.closed }] := by
  unfold regionPieces literalKind
  cases hkind : region.kind <;> first | rfl | exact absurd hkind h

theorem after_literal {expect : Expectation} {kind : Region.Kind} (h : kind ≠ .code)
    (lexeme : Text) (closed : Bool) :
    expect.after { kind := literalKind kind, lexeme, closed } = expect.afterLiteral kind := by
  cases kind <;> first | rfl | exact absurd rfl h

/-- Cutting the regions found from some place on is streaming from there. -/
theorem cutFrom_scanFrom {length pos : Nat} (expect : Expectation) (text : Text)
    (done : Array Piece) (hlength : length = pos + text.length) :
    (cutFrom length pos text done (scanFrom pos expect #[] ⟨pos, text⟩).toList).toList =
      done.toList ++ streamFrom expect text := by
  induction hlen : text.length using
    Nat.strong_induction_on generalizing pos expect text done with
  | _ n ih =>
      -- up to the next literal both passes agree on the code, and then on where the literal
      -- ends
      obtain ⟨code, rest, expect', rfl, hpasses, hliteral, hstream⟩ :=
        exists_codeSpan expect text
      rw [List.length_append] at hlength hlen
      rw [hpasses pos #[] pos, hstream]
      cases hread : readLiteral? expect' ⟨pos + code.length, rest⟩ with
      | none =>
          obtain rfl : rest = [] := hliteral.resolve_right fun h => h _ hread
          rw [scanFrom, ← List.append_nil (pushCode pos (pos + code.length) #[]).toList,
            cutFrom_pushCode (by omega), cutFrom, toList_cutCode]
          simp
      | some read =>
          obtain ⟨kind, ending⟩ := read
          obtain ⟨used, hne, hused, hpos, hnext⟩ := next?_of_literal hread
          have hkind := kind_of_readLiteral? hread
          have hpositive : 0 < used.length := List.length_pos_iff.2 hne
          have hrest : rest.length = used.length + ending.rest.length := by
            rw [← List.length_append, ← hused]
          rw [scanFrom_literal hread, toList_scanFrom, Array.toList_push, List.append_assoc,
            cutFrom_pushCode (by omega), streamFrom_of_next? hnext, after_literal hkind]
          have hregion := @cutFrom_region length (pos + code.length) used ending.rest
            (done ++ codePieces code)
            { kind, start := pos + code.length, stop := ending.pos, closed := ending.closed }
            (scanFrom ending.pos (expect'.afterLiteral kind) #[] ending.toCursor).toList
            hne rfl hpos (by omega)
          rw [← hused, ← hpos] at hregion
          rw [List.singleton_append, hregion]
          have hnext :=
            @ih ending.rest.length (by omega) ending.pos (expect'.afterLiteral kind)
              ending.rest
              (done ++ codePieces code ++
                ([{ kind := literalKind kind, lexeme := used, closed := ending.closed }] :
                  List Piece))
              (by omega) rfl
          rw [regionPieces_literal hkind, hnext]
          simp

/-- The pieces that the lexer cuts from a script are those of one pass over it. -/
theorem cut_scan (text : Text) : cut text (Region.scan text) = stream text := by
  unfold cut Region.scan stream
  split_ifs with hbang
  · obtain ⟨more, rfl⟩ := List.isPrefixOf_iff_prefix.1 hbang
    obtain ⟨run, rest, rfl, hrun, hrest⟩ := Text.exists_run (!·.isLineBreak) more
    have hline : ∀ b ∈ utf8 "#!" ++ run, (!b.isLineBreak) = true := by
      rw [List.forall_mem_append]
      exact ⟨Text.forall_mem_of_all (by decide), hrun⟩
    have hread : readLineComment 2 (run ++ rest) = ⟨⟨2 + run.length, rest⟩, true⟩ := by
      rw [readLineComment, skipWhile_append 2 hrun hrest]
    rw [← List.append_assoc, Text.takeWhile_append_stop hline hrest,
      Text.dropWhile_append_stop hline hrest]
    have hdrop : (utf8 "#!" ++ run ++ rest).drop 2 = run ++ rest := rfl
    have hstop : 2 + run.length = 0 + (utf8 "#!" ++ run).length := by
      rw [List.length_append, Nat.zero_add]
      rfl
    have hregion :=
      @cutFrom_region (utf8 "#!" ++ run ++ rest).length 0 (utf8 "#!" ++ run) rest #[]
        { kind := .lineComment, start := 0, stop := 2 + run.length }
        (scanFrom (2 + run.length) .operand #[] ⟨2 + run.length, rest⟩).toList
        (List.append_ne_nil_of_left_ne_nil (by decide) run) rfl hstop (by simp)
    rw [← hstop] at hregion
    rw [hdrop, hread, toList_scanFrom]
    dsimp only
    have hlength : (utf8 "#!" ++ run ++ rest).length = 2 + run.length + rest.length := by
      rw [hstop, List.length_append, Nat.zero_add]
    rw [List.singleton_append, hregion, cutFrom_scanFrom .operand rest _ hlength]
    rfl
  · rw [cutFrom_scanFrom .operand text #[] (by simp)]
    simp

end Piece

end LetBlocks
