import LetBlocks.Proofs.Node.Run
import LetBlocks.Proofs.Node.Tree
import LetBlocks.Proofs.Token.Tiling

/-!
At every moment the state of the parser holds all tokens read so far, in order: those of the
scopes around the current one, from the outermost inwards, each followed by the header of the
block opened in it, and then those of the current scope. Each step of the loop adds to this
exactly the tokens it takes from the script. Beside it runs a second invariant, that all blocks
finished so far are well formed and closed.
-/

namespace LetBlocks.Node

def Scope.content (s : Scope) : List Token := tokensAll s.nodes.reverse ++ s.run.reverse

/-- The tokens from the beginning of a scope to the body of the block opened in it. -/
def OpenBlock.content (b : OpenBlock) : List Token := b.outer.content ++ b.header.tokens

structure Finished (nodes : List Node) : Prop where
  each : ∀ n ∈ nodes, n.WellFormed ∧ n.isOpen = false
  apart : nodes.IsChain Apart

/-- A scope whose nodes are finished, the latest of them being a block. -/
structure Scope.Valid (s : Scope) : Prop where
  nodes : Finished s.nodes
  latest : ∀ n ∈ s.nodes.head?, n.isPlain = false

structure OpenBlock.Valid (b : OpenBlock) : Prop where
  header : Header.IsHeader b.header.tokens b.header.declarations
  outer : Finished b.outer.nodes
  flushed : b.outer.run = []

theorem tokensAll_toNodes (s : Scope) : tokensAll s.toNodes = s.content := by
  unfold Scope.toNodes Scope.flushed Scope.content
  split_ifs with h
  · simp [h]
  · simp [tokensAll, tokens]

theorem Finished.reverse {nodes : List Node} (h : Finished nodes) : Finished nodes.reverse :=
  ⟨fun n hn => h.each n (List.mem_reverse.1 hn), isChain_apart_reverse h.apart⟩

theorem Finished.wellFormedAll {nodes : List Node} (h : Finished nodes) :
    WellFormedAll nodes :=
  wellFormedAll_of_closed h.each h.apart

/-- A block can follow whatever precedes it. -/
theorem Finished.cons_letBlock {nodes : List Node} (h : Finished nodes) {header : Header}
    {body : List Node} {t : Token} {span : Span}
    (hblock : (letBlock header body (some t) span).WellFormed) :
    Finished (letBlock header body (some t) span :: nodes) where
  each := by
    rw [List.forall_mem_cons]
    exact ⟨⟨hblock, rfl⟩, h.each⟩
  apart := by
    rw [List.isChain_cons]
    exact ⟨fun n _ => by simp [Apart, isPlain], h.apart⟩

theorem Scope.Valid.flushed {s : Scope} (h : s.Valid) : Finished s.flushed := by
  unfold Scope.flushed
  split_ifs with hrun
  · exact h.nodes
  · constructor
    · rw [List.forall_mem_cons]
      exact ⟨⟨by simpa [WellFormed] using hrun, rfl⟩, h.nodes.each⟩
    · rw [List.isChain_cons]
      exact ⟨fun n hn => by simp [Apart, h.latest n hn], h.nodes.apart⟩

theorem Scope.Valid.toNodes {s : Scope} (h : s.Valid) : Finished s.toNodes := h.flushed.reverse

namespace Progress

def content (p : Progress) : List Token :=
  p.around.reverse.flatMap OpenBlock.content ++ p.scope.content

structure Valid (p : Progress) : Prop where
  scope : p.scope.Valid
  around : ∀ b ∈ p.around, b.Valid

theorem valid_start : Valid {} := ⟨⟨⟨by simp, by simp⟩, by simp⟩, by simp⟩

/-! ### One step -/

/-- What can happen to a token that opens no block: it joins the plain run, with some brackets
or diagnostics changed beside it, or it is the brace that closes the innermost block. -/
theorem take_cases (p : Progress) (t : Token) :
    (∃ brackets ds, p.take t =
      Progress.append { p with
        scope := { p.scope with brackets }, journal := (p.noting ds).journal } t) ∨
    (∃ ds, p.around ≠ [] ∧ t.closes? = some .curly ∧ p.take t =
      { Progress.closeBlock (p.noting ds) (some t) t.span.stop with
        last := some t }) := by
  obtain ⟨ds, -, ⟨h, -⟩ | ⟨h, haround, hcloses, -⟩⟩ := take_inversion p t
  · exact .inl ⟨_, ds, h⟩
  · exact .inr ⟨ds, haround, hcloses, h⟩

theorem content_append (p : Progress) (t : Token) :
    (p.append t).content = p.content ++ [t] := by
  simp [content, append, Scope.content]

theorem content_openBlock (p : Progress) (t : Token) (header : Header) :
    (p.openBlock t header).content = p.content ++ header.tokens := by
  have houter : Scope.content { p.scope with nodes := p.scope.flushed, run := [] } =
      p.scope.content := by
    rw [← tokensAll_toNodes p.scope]
    simp [Scope.content, Scope.toNodes]
  simp only [content, openBlock, List.reverse_cons, List.flatMap_append, List.flatMap_cons,
    List.flatMap_nil, List.append_nil, OpenBlock.content, houter]
  simp [Scope.content, tokensAll]

theorem content_closeBlock {p : Progress} (hp : p.Valid) (closing : Option Token)
    (stop : Location) (h : p.around ≠ []) :
    (p.closeBlock closing stop).content = p.content ++ closing.toList := by
  obtain ⟨b, around, haround⟩ := List.exists_cons_of_ne_nil h
  have hrun : b.outer.run = [] := (hp.around b (by simp [haround])).flushed
  simp [closeBlock, haround, content, Scope.content, OpenBlock.content, hrun, tokensAll,
    tokens, tokensAll_toNodes]

theorem Valid.openBlock {p : Progress} (hp : p.Valid) {t : Token} {header : Header}
    (hheader : Header.IsHeader header.tokens header.declarations) :
    (p.openBlock t header).Valid where
  scope := ⟨⟨by simp [Progress.openBlock], by simp [Progress.openBlock]⟩, by
    simp [Progress.openBlock]⟩
  around := by
    rw [Progress.openBlock, List.forall_mem_cons]
    exact ⟨⟨hheader, hp.scope.flushed, rfl⟩, hp.around⟩

theorem Valid.closeBlock {p : Progress} (hp : p.Valid) {t : Token} (stop : Location)
    (ht : t.closes? = some .curly) (h : p.around ≠ []) :
    (p.closeBlock (some t) stop).Valid := by
  obtain ⟨b, around, haround⟩ := List.exists_cons_of_ne_nil h
  have hb := hp.around
  rw [haround, List.forall_mem_cons] at hb
  have hbody := hp.scope.toNodes
  rw [Progress.closeBlock, haround]
  refine ⟨⟨hb.1.outer.cons_letBlock ⟨hb.1.header, ?_, hbody.wellFormedAll⟩, ?_⟩, hb.2⟩
  · rintro u hu
    cases hu
    exact ⟨ht, fun n hn => (hbody.each n hn).2⟩
  · simp [isPlain]

/-- A token that opens no block is added to what was read, and the blocks finished so far stay
well formed. -/
theorem take_spec {p : Progress} (hp : p.Valid) (t : Token) :
    (p.take t).Valid ∧ (p.take t).content = p.content ++ [t] := by
  rcases take_cases p t with ⟨brackets, ds, h⟩ | ⟨ds, haround, hcloses, h⟩
  · rw [h, content_append]
    exact ⟨⟨⟨hp.scope.nodes, hp.scope.latest⟩, hp.around⟩, rfl⟩
  · rw [h]
    have hp' : Valid (p.noting ds) := ⟨hp.scope, hp.around⟩
    have hvalid := hp'.closeBlock t.span.stop hcloses haround
    exact ⟨⟨hvalid.scope, hvalid.around⟩, content_closeBlock hp' (some t) t.span.stop haround⟩

/-! ### The whole run -/

/-- What opening a block keeps, and taking any other token with failed headers reported before
it, holds at the end of the run. The statement may speak about the tokens that are still to
come. -/
theorem run_induction {motive : Progress → List Token → Prop}
    (hopen : ∀ (p : Progress) (t : Token) (header : Header) (rest rest' : List Token),
      t :: rest = header.tokens ++ rest' → Header.IsHeader header.tokens header.declarations →
      motive p (t :: rest) → motive (p.openBlock t header) rest')
    (htake : ∀ (p : Progress) (t : Token) (rest : List Token) (ds : List Diagnostic),
      (∀ d ∈ ds, d.code ∈ Header.faultCodes) → Filed ds → motive p (t :: rest) →
      motive (take (p.noting ds) t) rest)
    {p : Progress} {ts : List Token} (heof : ∀ t ∈ ts, t.isEof = false) (hp : motive p ts) :
    motive (p.run ts) [] := by
  fun_induction run p ts with
  | case1 p => exact hp
  | case2 p t rest hstart header rest' hread ih =>
      obtain ⟨hsplit, hheader⟩ :=
        Header.read_sound hread hstart.1 (List.forall_mem_cons.1 heof).2
      have heof' := heof
      rw [hsplit, List.forall_mem_append] at heof'
      exact ih heof'.2 (hopen p t header rest rest' hsplit hheader hp)
  | case3 p t rest hstart d hread ih =>
      have hcode : ∀ d' ∈ [d], d'.code ∈ Header.faultCodes := by
        simpa using Header.code_of_read hread
      have hfiled : Filed [d] := filed_singleton (Header.filed_of_read hread)
      exact ih (List.forall_mem_cons.1 heof).2 (htake p t rest [d] hcode hfiled hp)
  | case4 p t rest hstart hread ih =>
      exact ih (List.forall_mem_cons.1 heof).2 (htake p t rest [] (by simp) rfl hp)
  | case5 p t rest hstart ih =>
      exact ih (List.forall_mem_cons.1 heof).2 (htake p t rest [] (by simp) rfl hp)

theorem run_spec {p : Progress} (hp : p.Valid) {ts : List Token}
    (heof : ∀ t ∈ ts, t.isEof = false) :
    (p.run ts).Valid ∧ (p.run ts).content = p.content ++ ts := by
  have hrun :=
    run_induction (motive := fun q rest => q.Valid ∧ q.content ++ rest = p.content ++ ts)
      ?_ ?_ heof ⟨hp, rfl⟩
  · rwa [List.append_nil] at hrun
  · rintro q t header rest rest' hsplit hheader ⟨hq, hcontent⟩
    exact ⟨hq.openBlock hheader, by
      rw [content_openBlock, List.append_assoc, ← hsplit, hcontent]⟩
  · rintro q t rest ds - - ⟨hq, hcontent⟩
    obtain ⟨htake, htaken⟩ := take_spec (p := q.noting ds) ⟨hq.scope, hq.around⟩ t
    exact ⟨htake, by rw [htaken, List.append_assoc]; exact hcontent⟩

/-! ### The end of the script -/

/-- What holds while the blocks that are still open are closed. The innermost scope may end
with an open block. -/
structure Ending (content : List Token) (p : Progress) : Prop where
  scope : WellFormedAll p.scope.toNodes
  around : ∀ b ∈ p.around, b.Valid
  content : p.content = content

/-- Blocks are closed from the innermost outwards, so each of them comes to stand last in the
scope around it. -/
theorem toNodes_abandon {p : Progress} {b : OpenBlock} {around : List OpenBlock}
    (hp : p.around = b :: around) (hrun : b.outer.run = []) (stop : Location) :
    (abandon stop p b).scope.toNodes = b.outer.nodes.reverse ++
      [.letBlock b.header p.scope.toNodes none ⟨b.letToken.span.start, stop⟩] := by
  simp [abandon, warn, closeBlock, hp, Scope.toNodes, Scope.flushed, hrun]

theorem around_abandon {p : Progress} {b : OpenBlock} {around : List OpenBlock}
    (hp : p.around = b :: around) (stop : Location) : (abandon stop p b).around = around := by
  simp [abandon, warn, closeBlock, hp]

theorem Ending.abandon {content : List Token} {p : Progress} {b : OpenBlock}
    {around : List OpenBlock} (h : p.Ending content) (hp : p.around = b :: around)
    (stop : Location) : (abandon stop p b).Ending content := by
  have hvalid := h.around
  rw [hp, List.forall_mem_cons] at hvalid
  obtain ⟨⟨hheader, houter, hrun⟩, hrest⟩ := hvalid
  constructor
  · rw [toNodes_abandon hp hrun]
    apply wellFormedAll_append_singleton houter.reverse.each
    · exact ⟨hheader, by simp, h.scope⟩
    · refine List.isChain_append.2 ⟨houter.reverse.apart, by simp, ?_⟩
      simp [Apart, isPlain]
  · rwa [around_abandon hp]
  · rw [← h.content]
    simp [Progress.abandon, warn, closeBlock, hp, Progress.content, Scope.content,
      OpenBlock.content, hrun, tokensAll, tokens, tokensAll_toNodes]

/-- Ending the script adds no token. -/
theorem finish_spec {p : Progress} (stop : Location) (hscope : WellFormedAll p.scope.toNodes)
    (haround : ∀ b ∈ p.around, b.Valid) :
    WellFormedAll (p.finish stop).scope.toNodes ∧
      tokensAll (p.finish stop).scope.toNodes = p.content := by
  have hstart : p.Ending p.content := ⟨hscope, haround, rfl⟩
  obtain ⟨hend, hnil⟩ :=
    finish_induction (fun q b around hq h => Ending.abandon h hq stop) p hstart
  refine ⟨hend.scope, ?_⟩
  rw [← hend.content, content, hnil, tokensAll_toNodes]
  rfl

end Progress

/-- The tree of a list of tokens is well formed and holds the tokens before the first end of
input. -/
theorem parse_spec (tokens : List Token) :
    WellFormedAll (parse tokens).nodes ∧
      tokensAll (parse tokens).nodes = tokens.takeWhile (!·.isEof) := by
  obtain ⟨hvalid, hcontent⟩ :=
    Progress.run_spec Progress.valid_start Token.isEof_of_mem_takeWhile
  obtain ⟨hwell, htokens⟩ :=
    Progress.finish_spec (tokens.getLast?.elim {} (·.span.stop))
      hvalid.scope.toNodes.wellFormedAll
      hvalid.around
  refine ⟨hwell, htokens.trans ?_⟩
  rw [hcontent]
  simp [Progress.content, Scope.content, tokensAll]

/-- The source text of a tree is the text of the tokens it was built from, whatever these are.
So the tree of a source gives back the source's content, however the source was divided into
regions. -/
theorem rawText_parse :
    (∀ tokens : List Token,
      rawText (parse tokens).nodes = Token.join (tokens.takeWhile (!·.isEof))) ∧
    (∀ (source : Source) (regions : List Region),
      rawText (parse (Token.lexAlong source regions).tokens).nodes = source.content) := by
  have hparse : ∀ tokens : List Token,
      rawText (parse tokens).nodes = Token.join (tokens.takeWhile (!·.isEof)) := by
    intro tokens
    rw [rawText_eq_rawAll, rawAll_eq_join, (parse_spec tokens).2]
  refine ⟨hparse, ?_⟩
  intro source regions
  rw [hparse, Token.join_takeWhile_lexAlong]

end LetBlocks.Node
