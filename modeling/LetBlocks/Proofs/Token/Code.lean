import LetBlocks.Proofs.Text.Bytes
import LetBlocks.Token.Lexer
import Mathlib.Data.List.Find

/-!
In code the lexer takes the longest piece it can. `CodePiece` says which pieces these are, by
their bytes and by what follows them, and without the lexer: a word before something that is
not part of a word, a punctuator before something that does not make it longer, and so on.
Every text of code begins with exactly one such piece, and it is the one the lexer takes.
-/

namespace LetBlocks

/-- A byte that can belong to a punctuator without being its first, or that a point or a
question mark looks at. -/
def Byte.extendsPunct (b : Byte) : Bool := (utf8 "=>.*<&|?+-").contains b || b.isDigit

theorem Byte.extendsPunct_of_isBlank {b : Byte} (h : b.isBlank = true) :
    b.extendsPunct = false := by
  simp only [isBlank, isInlineBlank, isLineBreak, Bool.or_eq_true, beq_iff_eq] at h
  rcases h with (((rfl | rfl) | rfl) | rfl) | rfl | rfl <;> decide

/-- A text that does not make a longer punctuator of one that ends before it. -/
def Text.Calm (text : Text) : Prop := Text.Avoids Byte.extendsPunct text

namespace Piece

/-! ### The length of a punctuator -/

theorem two_le_length_of_mem_operators : ∀ o ∈ operators, 2 ≤ o.length := by decide

theorem extendsPunct_of_mem_tail : ∀ o ∈ operators, ∀ b ∈ o.tail, b.extendsPunct = true := by
  have hall : ∀ o ∈ operators, o.tail.all (fun b => decide (b.extendsPunct = true)) =
      true := by decide
  exact fun o ho => Text.forall_mem_of_all (hall o ho)

theorem operatorLength_of_mem : ∀ o ∈ operators, operatorLength o = o.length := by decide

theorem isPrefix_of_find? {text o : Text} (h : operators.find? (·.isPrefixOf text) = some o) :
    o ∈ operators ∧ o <+: text := by
  have hprefix := List.find?_some h
  exact ⟨List.mem_of_find?_eq_some h, List.isPrefixOf_iff_prefix.1 hprefix⟩

theorem one_le_operatorLength (text : Text) : 1 ≤ operatorLength text := by
  unfold operatorLength
  split
  · next o ho =>
    have := two_le_length_of_mem_operators o (isPrefix_of_find? ho).1
    split_ifs <;> omega
  · exact Nat.le_refl 1

theorem operatorLength_le {text : Text} (h : text ≠ []) :
    operatorLength text ≤ text.length := by
  have hpos : 1 ≤ text.length := List.length_pos_iff.2 h
  unfold operatorLength
  split
  · next o ho =>
    have hle := (isPrefix_of_find? ho).2.length_le
    split_ifs <;> omega
  · exact hpos

theorem isPrefix_append_iff_of_calm {o text rest : Text} (ho : ∀ b ∈ o, b.extendsPunct = true)
    (hrest : rest.Calm) : o <+: text ++ rest ↔ o <+: text := by
  induction text generalizing o with
  | nil =>
      cases o with
      | nil => simp
      | cons b o =>
          rw [List.forall_mem_cons] at ho
          cases rest with
          | nil => simp
          | cons c rest =>
              have hc : c.extendsPunct = false := Text.avoids_cons.1 hrest
              have hbc : b ≠ c := by
                rintro rfl
                simp [ho.1] at hc
              simp [hbc]
  | cons c text ih =>
      cases o with
      | nil => simp
      | cons b o =>
          rw [List.forall_mem_cons] at ho
          simp [ih ho.2]

/-- A calm text does not change where the punctuator before it ends. -/
theorem operatorLength_append_of_calm {text rest : Text} (htext : text ≠ [])
    (hrest : rest.Calm) : operatorLength (text ++ rest) = operatorLength text := by
  obtain ⟨b, text, rfl⟩ := List.exists_cons_of_ne_nil htext
  have hfind : operators.find? (·.isPrefixOf (b :: text ++ rest)) =
      operators.find? (·.isPrefixOf (b :: text)) := by
    apply List.find?_congr
    intro o ho
    have htail := extendsPunct_of_mem_tail o ho
    rw [Bool.eq_iff_iff, List.isPrefixOf_iff_prefix, List.isPrefixOf_iff_prefix]
    cases o with
    | nil => simp
    | cons c o =>
        rw [List.cons_append, List.cons_prefix_cons, List.cons_prefix_cons,
          isPrefix_append_iff_of_calm (o := o) htail hrest]
  unfold operatorLength
  rw [hfind]
  split
  · next o ho =>
    obtain ⟨hmem, hprefix⟩ := isPrefix_of_find? ho
    have hlen := hprefix.length_le
    have htwo := two_le_length_of_mem_operators o hmem
    -- the digit that a question mark looks at is inside the text, or there is none
    have hdigit : (b :: text ++ rest)[2]?.any Byte.isDigit =
        (b :: text)[2]?.any Byte.isDigit := by
      rcases Nat.lt_or_ge 2 (b :: text).length with hlt | hge
      · rw [List.getElem?_append_left hlt]
      · rw [List.getElem?_append_right hge, show 2 - (b :: text).length = 0 by omega,
          List.getElem?_eq_none hge]
        cases rest with
        | nil => rfl
        | cons c rest =>
            have hc : c.extendsPunct = false := Text.avoids_cons.1 hrest
            rw [Byte.extendsPunct, Bool.or_eq_false_iff] at hc
            simpa using hc.2
    rw [hdigit]
  · rfl

/-- A punctuator of more than one byte is in the list. -/
theorem mem_operators {text rest : Text} (h : operatorLength (text ++ rest) = text.length)
    (htwo : 2 ≤ text.length) : text ∈ operators := by
  unfold operatorLength at h
  split at h
  · next o ho =>
    split_ifs at h with hdigit
    · omega
    · obtain ⟨hmem, more, hmore⟩ := isPrefix_of_find? ho
      obtain rfl : o = text := (List.append_inj hmore h).1
      exact hmem
  · omega

/-- A punctuator is one on its own too. -/
theorem operatorLength_self {text rest : Text}
    (h : operatorLength (text ++ rest) = text.length) : operatorLength text = text.length := by
  rcases Nat.lt_or_ge text.length 2 with hlt | htwo
  · have hpos := one_le_operatorLength (text ++ rest)
    have hne : text ≠ [] := List.ne_nil_of_length_pos (by omega)
    have hle := operatorLength_le hne
    have hge := one_le_operatorLength text
    omega
  · exact operatorLength_of_mem text (mem_operators h htwo)

/-- A byte with which no longer punctuator begins. -/
theorem operatorLength_cons_of_ne {b : Byte} (h : ∀ o ∈ operators, o.head? ≠ some b)
    (rest : Text) : operatorLength (b :: rest) = 1 := by
  have hnone : operators.find? (·.isPrefixOf (b :: rest)) = none := by
    rw [List.find?_eq_none]
    intro o ho hprefix
    rw [List.isPrefixOf_iff_prefix] at hprefix
    cases o with
    | nil => exact absurd (two_le_length_of_mem_operators [] ho) (by simp)
    | cons c o => exact h _ ho (by simp [(List.cons_prefix_cons.1 hprefix).1])
  rw [operatorLength, hnone]

/-! ### Pieces -/

def wordKind (text : Text) : Token.Kind := if text = utf8 "let" then .kwLet else .identifier

inductive CodePiece : Token.Kind → Text → Text → Prop
  | lf {rest : Text} : CodePiece .newline [Byte.lf] rest
  | crlf {rest : Text} : CodePiece .newline [Byte.cr, Byte.lf] rest
  | cr {rest : Text} (hrest : Text.Avoids (· == Byte.lf) rest) :
      CodePiece .newline [Byte.cr] rest
  | blanks {b : Byte} {more rest : Text} (hb : b.isInlineBlank = true)
      (hmore : ∀ x ∈ more, x.isInlineBlank = true)
      (hrest : Text.Avoids Byte.isInlineBlank rest) :
      CodePiece .whitespace (b :: more) rest
  | number {b : Byte} {more rest : Text} (hb : b.isDigit = true)
      (hmore : ∀ x ∈ more, x.isNumeral = true) (hrest : Text.Avoids Byte.isNumeral rest) :
      CodePiece .number (b :: more) rest
  | fraction {b : Byte} {more rest : Text} (hb : b.isDigit = true)
      (hmore : ∀ x ∈ more, x.isNumeral = true) (hrest : Text.Avoids Byte.isNumeral rest) :
      CodePiece .number (Byte.dot :: b :: more) rest
  | word {kind : Token.Kind} {b : Byte} {more rest : Text}
      (hkind : kind = wordKind (b :: more))
      (hb : b.isWordStart = true) (hmore : ∀ x ∈ more, x.isWord = true)
      (hrest : Text.Avoids Byte.isWord rest) : CodePiece kind (b :: more) rest
  | punct {b : Byte} {more rest : Text} (hblank : b.isBlank = false) (hword : b.isWord = false)
      (hdot : b = Byte.dot → Text.Avoids Byte.isDigit (more ++ rest))
      (hlength : operatorLength (b :: more ++ rest) = (b :: more).length) :
      CodePiece .punct (b :: more) rest

theorem CodePiece.exists_cons {kind : Token.Kind} {lexeme rest : Text}
    (h : CodePiece kind lexeme rest) : ∃ b more, lexeme = b :: more := by
  cases h <;> exact ⟨_, _, rfl⟩

theorem leading_of_codePiece {kind : Token.Kind} {b : Byte} {more rest : Text}
    (h : CodePiece kind (b :: more) rest) :
    leading b (more ++ rest) = (kind, more.length) := by
  cases h with
  | lf => rfl
  | crlf => rfl
  | cr hrest =>
      have hhead : rest.head? ≠ some Byte.lf := by
        intro hlf
        simp [Text.Avoids, hlf] at hrest
      simp [leading, Byte.isLineBreak, hhead]
  | blanks hb hmore hrest =>
      simp [leading, hb, Byte.isLineBreak_of_isInlineBlank hb,
        Text.takeWhile_append_stop hmore hrest]
  | number hb hmore hrest =>
      have hblank :=
        Byte.isBlank_eq_false_iff.1 (Byte.isBlank_of_isWord (Byte.isWord_of_isDigit hb))
      have htake := Text.takeWhile_append_stop hmore hrest
      simp only [leading, hb, hblank, true_or, if_true, Bool.false_eq_true, if_false]
      exact congrArg (fun run => (Token.Kind.number, run.length)) htake
  | @fraction d more _ hb hmore hrest =>
      have hall : ∀ x ∈ d :: more, x.isNumeral = true := by
        rw [List.forall_mem_cons]
        exact ⟨Byte.isNumeral_of_isDigit hb, hmore⟩
      have htake := Text.takeWhile_append_stop hall hrest
      have hfirst : (Byte.dot.isDigit = true ∨
          Byte.dot = Byte.dot ∧ ((d :: more ++ rest).head?.any Byte.isDigit) = true) :=
        .inr ⟨rfl, by simpa using hb⟩
      rw [leading]
      dsimp only
      rw [if_neg (by decide), if_neg (by decide), if_pos hfirst]
      exact congrArg (fun run => (Token.Kind.number, run.length)) htake
  | word hkind hb hmore hrest =>
      have hword := Byte.isWord_of_isWordStart hb
      have hblank := Byte.isBlank_eq_false_iff.1 (Byte.isBlank_of_isWord hword)
      have hdot : b ≠ Byte.dot := by
        rintro rfl
        exact absurd hword (by decide)
      simp only [leading, hblank, Byte.isDigit_of_isWordStart hb, hdot, false_and, or_self, hb,
        if_true, Bool.false_eq_true, if_false, Text.takeWhile_append_stop hmore hrest, hkind,
        wordKind]
  | punct hblank hword hdot hlength =>
      obtain ⟨hinline, hbreak⟩ := Byte.isBlank_eq_false_iff.1 hblank
      obtain ⟨hstart, hdigit⟩ := Byte.isWord_eq_false_iff.1 hword
      have hnumber : ¬ (b = Byte.dot ∧ ((more ++ rest).head?.any Byte.isDigit) = true) := by
        rintro ⟨hb, hany⟩
        have := hdot hb
        rw [Text.Avoids, hany] at this
        cases this
      rw [List.cons_append] at hlength
      simp only [leading, hinline, hbreak, hdigit, hstart, hnumber, hlength, or_self,
        Bool.false_eq_true, if_false, List.length_cons, Nat.add_sub_cancel]

/-- All code begins with a piece. -/
theorem exists_codePiece (b : Byte) (rest : Text) :
    ∃ kind more rest', rest = more ++ rest' ∧ CodePiece kind (b :: more) rest' := by
  by_cases hbreak : b.isLineBreak
  · simp only [Byte.isLineBreak, Bool.or_eq_true, beq_iff_eq] at hbreak
    rcases hbreak with rfl | rfl
    · exact ⟨.newline, [], rest, rfl, .lf⟩
    · by_cases hlf : rest.head? = some Byte.lf
      · obtain ⟨more, rfl⟩ := List.head?_eq_some_iff.1 hlf
        exact ⟨.newline, [Byte.lf], more, rfl, .crlf⟩
      · refine ⟨.newline, [], rest, rfl, .cr ?_⟩
        cases rest with
        | nil => simp
        | cons c rest => simpa using hlf
  by_cases hinline : b.isInlineBlank
  · obtain ⟨more, rest, rfl, hmore, hrest⟩ := Text.exists_run Byte.isInlineBlank rest
    exact ⟨.whitespace, more, rest, rfl, .blanks hinline hmore hrest⟩
  by_cases hdigit : b.isDigit
  · obtain ⟨more, rest, rfl, hmore, hrest⟩ := Text.exists_run Byte.isNumeral rest
    exact ⟨.number, more, rest, rfl, .number hdigit hmore hrest⟩
  by_cases hstart : b.isWordStart
  · obtain ⟨more, rest, rfl, hmore, hrest⟩ := Text.exists_run Byte.isWord rest
    exact ⟨_, more, rest, rfl, .word rfl hstart hmore hrest⟩
  by_cases hdot : b = Byte.dot ∧ (rest.head?.any Byte.isDigit) = true
  · obtain ⟨rfl, hany⟩ := hdot
    cases rest with
    | nil => simp at hany
    | cons d rest =>
        obtain ⟨more, rest, rfl, hmore, hrest⟩ := Text.exists_run Byte.isNumeral rest
        exact ⟨.number, d :: more, rest, rfl, .fraction (by simpa using hany) hmore hrest⟩
  · have hge := one_le_operatorLength (b :: rest)
    have hle : operatorLength (b :: rest) ≤ (b :: rest).length := operatorLength_le (by simp)
    refine ⟨.punct, rest.take (operatorLength (b :: rest) - 1),
      rest.drop (operatorLength (b :: rest) - 1), by simp, .punct ?_ ?_ ?_ ?_⟩
    · simp [Byte.isBlank_eq_false_iff, hinline, hbreak]
    · simp [Byte.isWord_eq_false_iff, hstart, hdigit]
    · intro hb
      rw [List.take_append_drop, Text.Avoids]
      simpa [hb] using hdot
    · simp only [List.length_cons] at hle
      rw [List.cons_append, List.take_append_drop, List.length_cons, List.length_take]
      omega

/-- The lexer takes the piece that comes first. -/
theorem leading_eq_iff {kind : Token.Kind} {b : Byte} {more rest : Text} :
    leading b (more ++ rest) = (kind, more.length) ↔ CodePiece kind (b :: more) rest := by
  refine ⟨fun h => ?_, leading_of_codePiece⟩
  obtain ⟨kind', more', rest', hsplit, hpiece⟩ := exists_codePiece b (more ++ rest)
  have hlead := leading_of_codePiece hpiece
  rw [← hsplit, h] at hlead
  obtain ⟨rfl, hlength⟩ := Prod.mk.inj hlead
  obtain ⟨rfl, rfl⟩ := List.append_inj hsplit hlength
  exact hpiece

/-! ### What a piece depends on -/

/-- Another text can take the place of what follows a piece if it begins alike or is empty, and
leaves a punctuator as long as it was. -/
theorem CodePiece.congr {kind : Token.Kind} {lexeme rest rest' : Text}
    (h : CodePiece kind lexeme rest) (hhead : rest'.head? = rest.head? ∨ rest' = [])
    (hpunct : kind = .punct →
      operatorLength (lexeme ++ rest') = operatorLength (lexeme ++ rest)) :
    CodePiece kind lexeme rest' := by
  have havoids : ∀ p : Byte → Bool, Text.Avoids p rest → Text.Avoids p rest' := by
    intro p hp
    rcases hhead with hhead | rfl
    · exact hp.of_head? hhead
    · simp
  cases h with
  | lf => exact .lf
  | crlf => exact .crlf
  | cr hrest => exact .cr (havoids _ hrest)
  | blanks hb hmore hrest => exact .blanks hb hmore (havoids _ hrest)
  | number hb hmore hrest => exact .number hb hmore (havoids _ hrest)
  | fraction hb hmore hrest => exact .fraction hb hmore (havoids _ hrest)
  | word hkind hb hmore hrest => exact .word hkind hb hmore (havoids _ hrest)
  | @punct b more _ hblank hword hdot hlength =>
      refine .punct hblank hword ?_ ((hpunct rfl).trans hlength)
      intro hb
      cases more with
      | nil => exact havoids _ (hdot hb)
      | cons c more => exact hdot hb

/-- A calm text after a piece and the code that follows it does not change the piece. -/
theorem CodePiece.of_append_calm {kind : Token.Kind} {lexeme code rest : Text}
    (h : CodePiece kind lexeme (code ++ rest)) (hrest : rest.Calm) :
    CodePiece kind lexeme code := by
  apply h.congr
  · cases code with
    | nil => exact .inr rfl
    | cons b code => exact .inl rfl
  · intro _
    obtain ⟨b, more, rfl⟩ := h.exists_cons
    rw [← List.append_assoc, operatorLength_append_of_calm (by simp) hrest]

end Piece

end LetBlocks
