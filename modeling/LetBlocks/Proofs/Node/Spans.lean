import LetBlocks.Proofs.Node.Sequences

/-!
A let-block reaches from its `let` to its closing brace. If it has none, it reaches to a place
that is the same for all such blocks of a script: the end of the last token the parser was
given.
-/

namespace LetBlocks.Node

def scriptStop (tokens : List Token) : Location := tokens.getLast?.elim {} (·.span.stop)

theorem scriptStop_append (before : List Token) {tokens : List Token} (h : tokens ≠ []) :
    scriptStop (before ++ tokens) = scriptStop tokens := by
  rw [scriptStop, List.getLast?_append_of_ne_nil before h, scriptStop]

/-- The span of a block with a given header, if blocks without a closing brace end at
`stop`. -/
def blockSpan (stop : Location) (header : Header) (closing : Option Token) : Span :=
  ⟨header.tokens.head?.elim {} (·.span.start), closing.elim stop (·.span.stop)⟩

/-- A node whose span, if it is a block, reaches from its first token to its last. -/
def Spanned (stop : Location) : Node → Prop
  | plain _ => True
  | letBlock header _ closing span => span = blockSpan stop header closing

theorem mem_withinAll {nodes : List Node} {n : Node} :
    n ∈ withinAll nodes ↔ ∃ node ∈ nodes, n ∈ node.within := by
  induction nodes with
  | nil => simp [withinAll]
  | cons node nodes ih => simp [withinAll, ih]

def SpannedAll (stop : Location) (nodes : List Node) : Prop :=
  ∀ n ∈ withinAll nodes, n.Spanned stop

section

variable {stop : Location} {nodes : List Node}

theorem SpannedAll.mono {nodes' : List Node} (h : SpannedAll stop nodes)
    (hsubset : nodes' ⊆ nodes) : SpannedAll stop nodes' := by
  intro n hn
  obtain ⟨node, hnode, hwithin⟩ := mem_withinAll.1 hn
  exact h n (mem_withinAll.2 ⟨node, hsubset hnode, hwithin⟩)

theorem spannedAll_cons {node : Node} :
    SpannedAll stop (node :: nodes) ↔ SpannedAll stop [node] ∧ SpannedAll stop nodes := by
  simp [SpannedAll, withinAll, or_imp, forall_and]

theorem spannedAll_cons_plain {ts : List Token} :
    SpannedAll stop (plain ts :: nodes) ↔ SpannedAll stop nodes := by
  simp [SpannedAll, withinAll, within, Spanned]

theorem spannedAll_cons_letBlock {header : Header} {body : List Node} {closing : Option Token}
    {span : Span} :
    SpannedAll stop (letBlock header body closing span :: nodes) ↔
      span = blockSpan stop header closing ∧ SpannedAll stop body ∧ SpannedAll stop nodes := by
  simp [SpannedAll, withinAll, within, Spanned, or_imp, forall_and]

theorem Scope.spannedAll_flushed {s : Scope} (h : SpannedAll stop s.nodes) :
    SpannedAll stop s.flushed := by
  unfold Scope.flushed
  split
  · exact h
  · exact spannedAll_cons_plain.2 h

theorem Scope.spannedAll_toNodes {s : Scope} (h : SpannedAll stop s.nodes) :
    SpannedAll stop s.toNodes :=
  (Scope.spannedAll_flushed h).mono fun _ hn => List.mem_reverse.1 hn

end

namespace Progress

/-- What is finished has its spans, and the parser knows the `let`s of what is not. -/
structure Spanned (stop : Location) (p : Progress) : Prop where
  scope : SpannedAll stop p.scope.nodes
  outer : ∀ b ∈ p.around, SpannedAll stop b.outer.nodes
  lets : ∀ b ∈ p.around, b.header.tokens.head? = some b.letToken

variable {stop : Location} {p : Progress}

theorem spanned_start (stop : Location) : Spanned stop {} :=
  ⟨by simp [SpannedAll, withinAll], by simp, by simp⟩

theorem Spanned.openBlock (h : p.Spanned stop) {t : Token} {header : Header}
    {rest rest' : List Token} (hsplit : t :: rest = header.tokens ++ rest')
    (hheader : Header.IsHeader header.tokens header.declarations) :
    (p.openBlock t header).Spanned stop where
  scope := by simp [Progress.openBlock, SpannedAll, withinAll]
  outer := List.forall_mem_cons.2 ⟨Scope.spannedAll_flushed h.scope, h.outer⟩
  lets := List.forall_mem_cons.2 ⟨hheader.head?_eq hsplit, h.lets⟩

theorem Spanned.closeBlock (h : p.Spanned stop) {closing : Option Token} {stop' : Location}
    (hstop : closing.elim stop (·.span.stop) = stop') :
    (p.closeBlock closing stop').Spanned stop := by
  unfold Progress.closeBlock
  split
  · exact h
  · next b around haround =>
    obtain ⟨hscope, houter, hlets⟩ := h
    rw [haround, List.forall_mem_cons] at houter hlets
    have hspan : (⟨b.letToken.span.start, stop'⟩ : Span) =
        blockSpan stop b.header closing := by
      rw [blockSpan, hlets.1, hstop]
      rfl
    exact ⟨spannedAll_cons_letBlock.2 ⟨hspan, Scope.spannedAll_toNodes hscope, houter.1⟩,
      houter.2, hlets.2⟩

theorem Spanned.take (h : p.Spanned stop) (t : Token) : (p.take t).Spanned stop := by
  rcases take_cases p t with ⟨brackets, ds, htake⟩ | ⟨ds, -, -, htake⟩
  · rw [htake]
    exact ⟨h.scope, h.outer, h.lets⟩
  · have hp : Spanned stop (p.noting ds) := ⟨h.scope, h.outer, h.lets⟩
    have hclose :
        Spanned stop (Progress.closeBlock (p.noting ds) (some t) t.span.stop) :=
      hp.closeBlock rfl
    rw [htake]
    exact ⟨hclose.scope, hclose.outer, hclose.lets⟩

theorem Spanned.run (h : p.Spanned stop) {ts : List Token} (heof : ∀ t ∈ ts, t.isEof = false) :
    (p.run ts).Spanned stop := by
  refine run_induction (motive := fun p _ => p.Spanned stop) ?_ ?_ heof h
  · intro p t header rest rest' hsplit hheader h
    exact h.openBlock hsplit hheader
  · intro p t rest ds _ _ h
    have hreported : Spanned stop (p.noting ds) := ⟨h.scope, h.outer, h.lets⟩
    exact hreported.take t

theorem Spanned.finish (h : p.Spanned stop) : (p.finish stop).Spanned stop := by
  refine (finish_induction (motive := Spanned stop) ?_ p h).1
  intro p b _ _ h
  have hreport : (p.warn (.openBlock b.letToken.span.start.line) b.letToken.span).Spanned
      stop :=
    ⟨h.scope, h.outer, h.lets⟩
  exact hreport.closeBlock rfl

end Progress

/-- Every block of a tree reaches from its `let` to its closing brace, or to the end of the
last token. -/
theorem spannedAll_parse (tokens : List Token) :
    SpannedAll (scriptStop tokens) (parse tokens).nodes :=
  Scope.spannedAll_toNodes
    ((Progress.spanned_start _).run Token.isEof_of_mem_takeWhile).finish.scope

end LetBlocks.Node
