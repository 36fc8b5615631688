import LetBlocks.Proofs.Output.Insertions
import LetBlocks.Proofs.Output.Runs

/-!
A line break behind `throw` would end the statement there, so the operand has to begin on the
same line. An initializer may begin with blanks, which are dropped, or with comments, which may
hold line breaks or end with one; then it is put in parentheses. A header with an initializer
that holds nothing but trivia is no header, so there always is an operand.
-/

namespace LetBlocks.Output

open Node

def feedBehind (tokens : List Token) : Text :=
  if tokens.getLast?.any (·.kind == .lineComment) then utf8 "\n" else []

/-- How an initializer is thrown: without the blanks around it, all else `kept` in its order,
and in parentheses exactly if its `first` token but for blanks is a comment. -/
structure Throws (init : List Token) (first : Token) (kept : List Token)
    (operand : Text) : Prop where
  first_eq : init.find? (fun t => !t.isBlank) = some first
  head_eq : kept.head? = some first
  around : ∃ front back, init = front ++ kept ++ back ∧ ∀ t ∈ front ++ back, t.isBlank = true
  last : ∀ t ∈ kept.getLast?, t.isBlank = false
  wrapped : first.kind.isComment = true →
    operand = utf8 "(" ++ kept.flatMap Token.lexeme ++ feedBehind kept ++ utf8 ")"
  bare : first.kind.isComment = false →
    operand = kept.flatMap Token.lexeme ++ feedBehind kept ∧
      init.find? (fun t => !t.isTrivia) = some first

/-- What stands behind the `throw` of a declaration with or without an initializer. -/
def IsOperand : Option (List Token) → Text → Prop
  | none, operand => operand = utf8 "undefined"
  | some init, operand => ∃ first kept, Throws init first kept operand

/-! ### One initializer -/

theorem isTrivia_eq_isComment {t : Token} (h : t.isBlank = false) :
    t.isTrivia = t.kind.isComment := by
  have hblank : t.kind.isBlank = false := h
  rw [Token.isTrivia, Token.Kind.isTrivia, hblank, Bool.false_or]

/-- Behind its blanks, a run that is not all blank begins with a token that is not. -/
theorem exists_first {init : List Token} (h : ∃ t ∈ init, t.isBlank = false) :
    ∃ front first more, init = front ++ first :: more ∧ (∀ t ∈ front, t.isBlank = true) ∧
      first.isBlank = false ∧ trimStart init = first :: more := by
  obtain ⟨front, hsplit, hfront⟩ := exists_trimStart init
  cases htrim : trimStart init with
  | nil =>
      rw [htrim, List.append_nil] at hsplit
      obtain ⟨t, ht, hblank⟩ := h
      rw [hsplit] at ht
      rw [hfront t ht] at hblank
      cases hblank
  | cons first more =>
      rw [htrim] at hsplit
      have hfirst := List.head?_dropWhile_not Token.isBlank init
      rw [show init.dropWhile Token.isBlank = first :: more from htrim] at hfirst
      exact ⟨front, first, more, hsplit, hfront, by simpa using hfirst, rfl⟩

/-- Dropping the blanks behind a token that is none leaves it where it is. -/
theorem exists_trimEnd_cons {first : Token} (h : first.isBlank = false) (more : List Token) :
    ∃ more' back, trimEnd (first :: more) = first :: more' ∧ more = more' ++ back ∧
      ∀ t ∈ back, t.isBlank = true := by
  obtain ⟨back, hsplit, hback⟩ := exists_trimEnd (first :: more)
  cases htrim : trimEnd (first :: more) with
  | nil =>
      rw [htrim, List.nil_append] at hsplit
      rw [hback first (by simp [← hsplit])] at h
      cases h
  | cons first' more' =>
      rw [htrim, List.cons_append] at hsplit
      obtain ⟨rfl, hmore⟩ := List.cons.inj hsplit
      exact ⟨more', back, rfl, hmore, hback⟩

theorem find?_front {p : Token → Bool} {front more : List Token} {first : Token}
    (hfront : ∀ t ∈ front, p t = false) (hfirst : p first = true) :
    (front ++ first :: more).find? p = some first := by
  have hnone : front.find? p = none := by simpa using hfront
  rw [List.find?_append, hnone, Option.none_or, List.find?_cons_of_pos hfirst]

theorem throws_of_significant {init : List Token} (h : ∃ t ∈ init, t.isTrivia = false) :
    ∃ first kept, Throws init first kept
      (if startsWithComment init then utf8 "(" ++ trimmedText init ++ utf8 ")"
      else trimmedText init) := by
  have hsolid : ∃ t ∈ init, t.isBlank = false := by
    obtain ⟨t, ht, htrivia⟩ := h
    exact ⟨t, ht, (Bool.or_eq_false_iff.1 htrivia).1⟩
  obtain ⟨front, first, more, rfl, hfront, hfirst, htrim⟩ := exists_first hsolid
  obtain ⟨more', back, htrim', rfl, hback⟩ := exists_trimEnd_cons hfirst more
  have hkept : trimmedText (front ++ first :: (more' ++ back)) =
      (first :: more').flatMap Token.lexeme ++ feedBehind (first :: more') := by
    rw [trimmedText, htrim, htrim']
    rfl
  have hstarts : startsWithComment (front ++ first :: (more' ++ back)) =
      first.kind.isComment := by
    rw [startsWithComment, htrim, List.head?_cons, Option.any_some,
      isTrivia_eq_isComment hfirst]
  refine ⟨first, first :: more', ?_⟩
  rw [hkept, hstarts]
  refine {
    first_eq := find?_front (by simpa using hfront) (by simp [hfirst])
    head_eq := rfl
    around := ⟨front, back, by simp, List.forall_mem_append.2 ⟨hfront, hback⟩⟩
    last := ?_
    wrapped := fun hcomment => by simp only [hcomment, if_true, List.append_assoc]
    bare := fun hcomment => ⟨if_neg (by simp [hcomment]), ?_⟩ }
  · intro t ht
    rw [← htrim', getLast?_trimEnd] at ht
    simpa using List.find?_some ht
  · refine find?_front (fun t ht => ?_) ?_
    · have hblank : t.kind.isBlank = true := hfront t ht
      rw [Token.isTrivia, Token.Kind.isTrivia, hblank, Bool.true_or, Bool.not_true]
    · rw [isTrivia_eq_isComment hfirst, hcomment, Bool.not_false]

/-! ### All layers -/

theorem isOperand_operandText {d : Declaration} (h : d.Sound) :
    IsOperand d.initializer (operandText d) := by
  unfold operandText valueText
  cases hinit : d.initializer with
  | none => rfl
  | some init => exact throws_of_significant (h.significant init hinit)

theorem sound_of_mem_declarationsAll {nodes : List Node} (h : WellFormedAll nodes)
    {d : Declaration} (hd : d ∈ declarationsAll nodes) : d.Sound := by
  obtain ⟨node, hnode, hd⟩ := List.mem_flatMap.1 hd
  cases node with
  | plain ts => cases hd
  | letBlock header body closing span => exact (h.of_mem_within _ hnode).sound.1.each d hd

/-- In the output of any tokens, the layers of all declarations follow one another with other
text between them. In each of them `throw` is followed by its operand: by `undefined`, or by
the initializer from its first token on that is not trivia, or, exactly if a comment stands
before that one, by the initializer in parentheses. Nothing of the initializer but blanks
around it is missing. -/
theorem layers_throw_operands (annotate : Bool) (tokens : List Token) :
    Text.Inserted
        ((declarationsAll (parse tokens).nodes).map (layerText { es3 := true, annotate }))
        (layered (fun _ => []) (parse tokens).nodes)
        (render { es3 := true, annotate } (parse tokens).nodes) ∧
      ∀ d ∈ declarationsAll (parse tokens).nodes, ∃ operand, IsOperand d.initializer operand ∧
        layerText { es3 := true, annotate } d =
          utf8 "try\x7bthrow " ++ operand ++ utf8 "\x7d" ++
            layerNote { es3 := true, annotate } ++ utf8 "catch(" ++
            d.name.lexeme ++ valueNote { es3 := true, annotate } d ++ utf8 ")\x7b" := by
  constructor
  · rw [render_eq_layered]
    have hinserted := inserted_layered
      (fun d => Text.Inserted.single (layerText { es3 := true, annotate } d))
      (parse tokens).nodes
    rwa [← List.map_eq_flatMap] at hinserted
  · intro d hd
    exact ⟨operandText d, isOperand_operandText
      (sound_of_mem_declarationsAll (parse_spec tokens).1 hd), rfl⟩

end LetBlocks.Output
