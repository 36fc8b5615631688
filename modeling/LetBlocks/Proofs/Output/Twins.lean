import LetBlocks.Proofs.Node.Twins
import LetBlocks.Proofs.Node.Walks
import LetBlocks.Proofs.Report.Threading

/-!
What is written for a tree depends on the kinds and the lexemes of its tokens, and not on where
they stand. Here that is followed through the writing of two trees with the same tokens at
different places. So the output for a source does not depend on its name.
-/

namespace LetBlocks

def Token.Moved (t u : Token) : Prop := t.toPiece = u.toPiece

namespace Token.Moved

variable {t u : Token}

theorem kind (h : t.Moved u) : t.kind = u.kind := congrArg Piece.kind h

theorem lexeme (h : t.Moved u) : t.lexeme = u.lexeme := congrArg Piece.lexeme h

theorem alike (h : t.Moved u) : t.Alike u := ⟨h.kind, fun _ => h.lexeme⟩

theorem isBlank (h : t.Moved u) :
    t.isBlank = u.isBlank := by rw [Token.isBlank, Token.isBlank, h.kind]

end Token.Moved

/-- Functions that agree on pairs give the same list. -/
theorem map_eq_of_forall₂ {α β γ : Type} {S : α → β → Prop} {f : α → γ} {g : β → γ}
    {xs : List α} {ys : List β} (hfg : ∀ x y, S x y → f x = g y) (h : List.Forall₂ S xs ys) :
    xs.map f = ys.map g := by
  induction h with
  | nil => rfl
  | cons hxy _ ih => rw [List.map_cons, List.map_cons, hfg _ _ hxy, ih]

namespace Output

/-! ### Tokens -/

variable {ts us : List Token}

theorem join_moved (h : List.Forall₂ Token.Moved ts us) : Token.join ts = Token.join us := by
  rw [Token.join, Token.join, List.flatMap, List.flatMap,
    map_eq_of_forall₂ (fun _ _ h => h.lexeme) h]

theorem trimStart_moved (h : List.Forall₂ Token.Moved ts us) :
    List.Forall₂ Token.Moved (trimStart ts) (trimStart us) :=
  forall₂_dropWhile (fun _ _ h => h.isBlank) h

theorem trimEnd_moved (h : List.Forall₂ Token.Moved ts us) :
    List.Forall₂ Token.Moved (trimEnd ts) (trimEnd us) :=
  List.rel_reverse (forall₂_dropWhile (fun _ _ h => h.isBlank) (List.rel_reverse h))

theorem any_moved {t u : Option Token} {p : Token → Bool} (hp : ∀ t u, t.Moved u → p t = p u)
    (h : Option.Rel Token.Moved t u) : t.any p = u.any p := by
  cases h with
  | none => rfl
  | some htu => exact hp _ _ htu

theorem closedText_moved (h : List.Forall₂ Token.Moved ts us) :
    closedText ts = closedText us := by
  have hlast :=
    any_moved (p := (·.kind == .lineComment)) (fun t u h => by rw [h.kind])
      (Node.getLast?_twin h)
  rw [closedText, closedText, join_moved h, hlast]

theorem trimmedText_moved (h : List.Forall₂ Token.Moved ts us) :
    trimmedText ts = trimmedText us :=
  closedText_moved (trimEnd_moved (trimStart_moved h))

theorem plainText_moved (h : List.Forall₂ Token.Moved ts us) (trim first last : Bool) :
    plainText trim first last ts = plainText trim first last us := by
  have hstart : List.Forall₂ Token.Moved (if trim && first then trimStart ts else ts)
      (if trim && first then trimStart us else us) := by
    split
    · exact trimStart_moved h
    · exact h
  unfold plainText
  dsimp only
  rw [closedText_moved (trimEnd_moved hstart), join_moved hstart]

/-! ### Blocks -/

variable {d e : Declaration}

theorem valueText_moved (h : d.Twin Token.Moved e) : valueText d = valueText e := by
  unfold valueText
  have hinitializer := h.initializer
  generalize d.initializer = init at hinitializer ⊢
  generalize e.initializer = init' at hinitializer ⊢
  cases hinitializer with
  | none => rfl
  | some htokens => exact trimmedText_moved htokens

theorem startsWithComment_moved (h : List.Forall₂ Token.Moved ts us) :
    startsWithComment ts = startsWithComment us := by
  have hstart := trimStart_moved h
  unfold startsWithComment
  generalize trimStart ts = ts' at hstart ⊢
  generalize trimStart us = us' at hstart ⊢
  cases hstart with
  | nil => rfl
  | cons htu _ => exact htu.alike.isTrivia

theorem layerText_moved (style : Style) (h : d.Twin Token.Moved e) :
    layerText style d = layerText style e := by
  have hvalue := valueText_moved h
  have hcomment : d.initializer.any startsWithComment = e.initializer.any startsWithComment ∧
      d.initializer.isSome = e.initializer.isSome := by
    have hinitializer := h.initializer
    generalize d.initializer = init at hinitializer ⊢
    generalize e.initializer = init' at hinitializer ⊢
    cases hinitializer with
    | none => exact ⟨rfl, rfl⟩
    | some htokens => exact ⟨startsWithComment_moved htokens, rfl⟩
  rw [layerText, layerText, operandText, operandText, valueNote, valueNote, hvalue, hcomment.1,
    hcomment.2, h.name.lexeme]

variable {header header' : Header}

theorem openingText_moved (style : Style) (h : header.Twin Token.Moved header') :
    openingText style header = openingText style header' := by
  have hlayers := map_eq_of_forall₂ (fun _ _ hd => layerText_moved style hd) h.declarations
  have hnative : header.declarations.map (fun d => trimmedText d.tokens) =
      header'.declarations.map fun d => trimmedText d.tokens :=
    map_eq_of_forall₂ (fun _ _ hd => trimmedText_moved hd.tokens) h.declarations
  unfold openingText
  simp only [Node.eq_nil_iff_of_forall₂ h.declarations, join_moved h.tokens, nativeText,
    hnative, List.flatMap, hlayers]

theorem closingText_moved (style : Style) (h : header.Twin Token.Moved header')
    {closing closing' : Option Token} (hclosing : Option.Rel Token.Moved closing closing') :
    closingText style header closing = closingText style header' closing' := by
  have hlexeme : closing.elim [Byte.closeCurly] Token.lexeme =
      closing'.elim [Byte.closeCurly] Token.lexeme := by
    cases hclosing with
    | none => rfl
    | some htu => exact htu.lexeme
  unfold closingText
  simp only [Node.eq_nil_iff_of_forall₂ h.declarations, hlexeme, h.declarations.length_eq]

theorem trimsBody_moved (h : header.Twin Token.Moved header') :
    trimsBody header = trimsBody header' := by
  simp only [trimsBody, ne_eq, Node.eq_nil_iff_of_forall₂ h.declarations]

/-! ### The tree -/

mutual

theorem writeNode_moved (style : Style) (trim first last : Bool) {a b : Node}
    (h : a.Twin Token.Moved b) :
    writeNode style trim first last a = writeNode style trim first last b := by
  cases h with
  | plain h => exact plainText_moved h trim first last
  | letBlock hheader hbody hclosing =>
      rw [writeNode, writeNode, openingText_moved style hheader,
        closingText_moved style hheader hclosing, trimsBody_moved hheader,
        writeFrom_moved style _ true hbody]

theorem writeFrom_moved (style : Style) (trim first : Bool) {as bs : List Node}
    (h : List.Forall₂ (Node.Twin Token.Moved) as bs) :
    writeFrom style trim first as = writeFrom style trim first bs := by
  cases h with
  | nil => rfl
  | cons hab hrest =>
      have hempty : ∀ {as bs : List Node}, List.Forall₂ (Node.Twin Token.Moved) as bs →
          as.isEmpty = bs.isEmpty := by
        intro as bs h
        cases h <;> rfl
      rw [writeFrom, writeFrom, hempty hrest, writeNode_moved style trim first _ hab,
        writeFrom_moved style trim false hrest]

end

end Output

/-- The tokens of two sources with the same content are the same, at other places. -/
theorem Token.moved_lexAlong {source source' : Source}
    (hcontent : source.content = source'.content) (regions : List Region) :
    List.Forall₂ Token.Moved (lexAlong source regions).tokens
      (lexAlong source' regions).tokens := by
  obtain ⟨ts, htokens, -, hpieces⟩ := exists_lexAlong source regions
  obtain ⟨us, htokens', -, hpieces'⟩ := exists_lexAlong source' regions
  rw [← hcontent, ← hpieces] at hpieces'
  have hmoved : List.Forall₂ Moved ts us := by
    have heq : List.Forall₂ (· = ·) (ts.map toPiece) (us.map toPiece) :=
      List.forall₂_eq_eq_eq ▸ hpieces'.symm
    rwa [List.forall₂_map_left_iff, List.forall₂_map_right_iff] at heq
  rw [htokens, htokens']
  exact List.rel_append hmoved (.cons rfl .nil)

/-- The name of a source has no part in what is written for it. -/
theorem Compilation.output_of_eq_compile (style : Style) (source : Source) :
    (Compilation.of style source).output = compile style source.content := by
  have hcontent : source.content = (Source.ofText source.content).content := rfl
  have hmoved := Token.moved_lexAlong hcontent (Region.scan source.content)
  have hnodes := (Node.parse_twin (fun _ _ h => h.alike) hmoved).1
  have hwrite := Output.writeFrom_moved style false true hnodes
  rw [Compilation.of, Compilation.along_eq, compile, Compilation.of, Compilation.along_eq,
    Output.render_eq_write, Output.render_eq_write]
  exact hwrite

end LetBlocks
