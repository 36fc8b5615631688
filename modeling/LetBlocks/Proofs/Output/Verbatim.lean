import LetBlocks.Proofs.Node.Sequences
import LetBlocks.Proofs.Output.Runs
import LetBlocks.Proofs.Report.Threading

/-!
The output of a script is that of its nodes, one after another, and a plain run is written as
it was read. The same holds inside the body of a let-block, at every depth, once the blanks at
both ends of the body are dropped; where a line comment comes to stand last, a line feed
follows it. It does not matter how the script was divided into regions.
-/

namespace LetBlocks.Output

open Node

def nodeText (style : Style) (node : Node) : Text := writeNode style false true true node

def onFirst (f : List Token → List Token) : List Node → List Node
  | .plain ts :: nodes => .plain (f ts) :: nodes
  | nodes => nodes

/-- The nodes of a body without the blanks at its beginning and at its end. -/
def trimmedBody (body : List Node) : List Node :=
  (onFirst trimEnd (onFirst trimStart body).reverse).reverse

def lineFeedAfter (nodes : List Node) : Text :=
  match nodes.getLast? with
  | some (.plain ts) => if ts.getLast?.any (·.kind == .lineComment) then [Byte.lf] else []
  | _ => []

/-- The nodes `kept` of a body lack nothing but blanks at its ends, and there are none left. -/
structure Trimmed (body kept : List Node) : Prop where
  blanks : ∃ before after, tokensAll body = before ++ tokensAll kept ++ after ∧
    ∀ t ∈ before ++ after, t.isBlank = true
  first : ∀ ts, kept.head? = some (.plain ts) → ∀ t ∈ ts.head?, t.isBlank = false
  last : ∀ ts, kept.getLast? = some (.plain ts) → ∀ t ∈ ts.getLast?, t.isBlank = false

/-! ### Sequences of nodes -/

/-- A node at no end that is trimmed. -/
theorem writeNode_eq_nodeText (style : Style) {trim first last : Bool}
    (hfirst : (trim && first) = false) (hlast : (trim && last) = false) (node : Node) :
    writeNode style trim first last node = nodeText style node := by
  cases node with
  | plain ts => simp [nodeText, writeNode, plainText, hfirst, hlast]
  | letBlock header body closing span => rw [nodeText, writeNode, writeNode]

theorem writeFrom_eq_flatMap (style : Style) (first : Bool) (nodes : List Node) :
    writeFrom style false first nodes = nodes.flatMap (nodeText style) := by
  induction nodes generalizing first with
  | nil => rfl
  | cons node nodes ih =>
      rw [writeFrom, ih, writeNode_eq_nodeText style rfl rfl, List.flatMap_cons]

/-- Blanks at the beginning are dropped from the first node, and then it is like those after
it. -/
theorem writeFrom_first (style : Style) (nodes : List Node) :
    writeFrom style true true nodes =
      writeFrom style true false (onFirst trimStart nodes) := by
  cases nodes with
  | nil => rfl
  | cons node nodes =>
      cases node with
      | plain ts => simp [onFirst, writeFrom, writeNode, plainText]
      | letBlock header body closing span => simp [onFirst, writeFrom, writeNode]

theorem writeFrom_concat (style : Style) (nodes : List Node) (node : Node) :
    writeFrom style true false (nodes ++ [node]) =
      nodes.flatMap (nodeText style) ++ writeNode style true false true node := by
  induction nodes with
  | nil => simp [writeFrom]
  | cons n nodes ih =>
      have hlast : (nodes ++ [node]).isEmpty = false := by simp
      rw [List.cons_append, writeFrom, ih, hlast, writeNode_eq_nodeText style rfl rfl,
        List.flatMap_cons, List.append_assoc]

theorem writeFrom_last (style : Style) (nodes : List Node) :
    writeFrom style true false nodes =
      ((onFirst trimEnd nodes.reverse).reverse.flatMap (nodeText style)) ++
        lineFeedAfter (onFirst trimEnd nodes.reverse).reverse := by
  induction nodes using List.reverseRecOn with
  | nil => rfl
  | append_singleton nodes node =>
      rw [writeFrom_concat, List.reverse_append, List.reverse_singleton, List.singleton_append]
      cases node with
      | plain ts => simp [onFirst, lineFeedAfter, nodeText, writeNode, plainText, closedText]
      | letBlock header body closing span => simp [onFirst, lineFeedAfter, nodeText, writeNode]

theorem writeFrom_trimmedBody (style : Style) (body : List Node) :
    writeFrom style true true body =
      (trimmedBody body).flatMap (nodeText style) ++ lineFeedAfter (trimmedBody body) := by
  rw [writeFrom_first, writeFrom_last, trimmedBody]

/-! ### Blanks -/

theorem tokensAll_onFirst_trimStart (nodes : List Node) :
    ∃ blanks, tokensAll nodes = blanks ++ tokensAll (onFirst trimStart nodes) ∧
      ∀ t ∈ blanks, t.isBlank = true := by
  unfold onFirst
  split
  · next ts nodes =>
    obtain ⟨blanks, hsplit, hblanks⟩ := exists_trimStart ts
    refine ⟨blanks, ?_, hblanks⟩
    rw [tokensAll, tokens, tokensAll, tokens, ← List.append_assoc, ← hsplit]
  · exact ⟨[], rfl, by simp⟩

theorem tokensAll_onFirst_trimEnd (nodes : List Node) :
    ∃ blanks, tokensAll nodes.reverse = tokensAll (onFirst trimEnd nodes).reverse ++ blanks ∧
      ∀ t ∈ blanks, t.isBlank = true := by
  unfold onFirst
  split
  · next ts nodes =>
    obtain ⟨blanks, hsplit, hblanks⟩ := exists_trimEnd ts
    refine ⟨blanks, ?_, hblanks⟩
    rw [List.reverse_cons, List.reverse_cons, tokensAll_append, tokensAll_append,
      List.append_assoc]
    simp [tokensAll, tokens, ← hsplit]
  · exact ⟨[], by simp, by simp⟩

theorem isBlank_head_onFirst {nodes : List Node} {ts : List Token}
    (h : (onFirst trimStart nodes).head? = some (.plain ts)) :
    ∀ t ∈ ts.head?, t.isBlank = false := by
  unfold onFirst at h
  split at h
  · next us nodes =>
    rw [List.head?_cons, Option.some.injEq, plain.injEq] at h
    subst h
    intro t ht
    have hhead := List.head?_dropWhile_not Token.isBlank us
    rw [show (us.dropWhile Token.isBlank).head? = some t from ht] at hhead
    simpa using hhead
  · next hnot =>
    obtain ⟨more, rfl⟩ := List.head?_eq_some_iff.1 h
    exact absurd rfl (hnot ts more)

theorem isBlank_getLast_onFirst {nodes : List Node} {ts : List Token}
    (h : (onFirst trimEnd nodes).head? = some (.plain ts)) :
    ∀ t ∈ ts.getLast?, t.isBlank = false := by
  unfold onFirst at h
  split at h
  · next us nodes =>
    rw [List.head?_cons, Option.some.injEq, plain.injEq] at h
    subst h
    intro t ht
    rw [getLast?_trimEnd] at ht
    simpa using List.find?_some ht
  · next hnot =>
    obtain ⟨more, rfl⟩ := List.head?_eq_some_iff.1 h
    exact absurd rfl (hnot ts more)

/-- Dropping blanks at the end leaves the first token as it is, or leaves nothing. -/
theorem head?_trimEnd_subset {ts : List Token} : ∀ t ∈ (trimEnd ts).head?, t ∈ ts.head? := by
  intro t ht
  obtain ⟨blanks, hsplit, -⟩ := exists_trimEnd ts
  obtain ⟨more, hmore⟩ := List.head?_eq_some_iff.1 ht
  rw [hsplit, hmore]
  rfl

theorem isBlank_head_of_reverse {nodes : List Node}
    (h : ∀ ts, nodes.head? = some (.plain ts) → ∀ t ∈ ts.head?, t.isBlank = false)
    (ts : List Token)
    (hts : (onFirst trimEnd nodes.reverse).reverse.head? = some (.plain ts)) :
    ∀ t ∈ ts.head?, t.isBlank = false := by
  have hkeep : ∀ (node : Node) (nodes : List Node) (n : Node),
      onFirst trimEnd (node :: nodes ++ [n]) = onFirst trimEnd (node :: nodes) ++ [n] := by
    intro node nodes n
    cases node <;> rfl
  cases nodes with
  | nil => cases hts
  | cons node nodes =>
      cases hnodes : nodes.reverse with
      | nil =>
          obtain rfl : nodes = [] := List.reverse_eq_nil_iff.1 hnodes
          cases node with
          | plain us =>
              obtain rfl : trimEnd us = ts := by simpa [onFirst] using hts
              exact fun t ht => h us rfl t (head?_trimEnd_subset t ht)
          | letBlock header body closing span => simp [onFirst] at hts
      | cons last more =>
          rw [List.reverse_cons, hnodes, hkeep, List.reverse_append] at hts
          exact h ts hts

theorem trimmed_trimmedBody (body : List Node) : Trimmed body (trimmedBody body) := by
  constructor
  · obtain ⟨before, hbefore, hblank⟩ := tokensAll_onFirst_trimStart body
    obtain ⟨after, hafter, hblank'⟩ :=
      tokensAll_onFirst_trimEnd (onFirst trimStart body).reverse
    rw [List.reverse_reverse] at hafter
    refine ⟨before, after, ?_, List.forall_mem_append.2 ⟨hblank, hblank'⟩⟩
    rw [hbefore, hafter, trimmedBody, List.append_assoc]
  · exact isBlank_head_of_reverse fun ts hts => isBlank_head_onFirst hts
  · intro ts hts
    rw [trimmedBody, List.getLast?_reverse] at hts
    exact isBlank_getLast_onFirst hts

/-! ### Whole scripts -/

theorem nodeText_letBlock (style : Style) {header : Header}
    (hheader : header.declarations ≠ []) (body : List Node) (closing : Option Token)
    (span : Span) :
    nodeText style (.letBlock header body closing span) =
      openingText style header ++
        ((trimmedBody body).flatMap (nodeText style) ++ lineFeedAfter (trimmedBody body)) ++
        closingText style header closing := by
  have htrims : trimsBody header = true := by simpa [trimsBody] using hheader
  rw [nodeText, writeNode, htrims, writeFrom_trimmedBody]

theorem nodeText_eq_raw_of_count {style : Style} {node : Node} (h : node.count = 0) :
    nodeText style node = node.raw := by
  cases node with
  | plain ts => rfl
  | letBlock header body closing span => simp [count] at h

theorem flatMap_nodeText_of_countAll {style : Style} {nodes : List Node}
    (h : countAll nodes = 0) : nodes.flatMap (nodeText style) = nodes.flatMap raw := by
  induction nodes with
  | nil => rfl
  | cons node nodes ih =>
      rw [countAll, Nat.add_eq_zero_iff] at h
      rw [List.flatMap_cons, List.flatMap_cons, nodeText_eq_raw_of_count h.1, ih h.2]

/-- Text outside of let-blocks is kept byte by byte. A source is the text of its nodes, and its
output is what is written for each of them, which is the same for a plain run. Within a block
it is not otherwise, but for the blanks at both ends of its body and for the line feed that
follows a line comment there. -/
theorem output_verbatim (style : Style) (source : Source) (regions : List Region) :
    source.content = (Compilation.along style source regions).nodes.flatMap raw ∧
    (Compilation.along style source regions).output =
      (Compilation.along style source regions).nodes.flatMap (nodeText style) ∧
    (∀ ts, nodeText style (.plain ts) = raw (.plain ts)) ∧
    (blockCount (Compilation.along style source regions).nodes = 0 →
      (Compilation.along style source regions).output = source.content) ∧
    ∀ header body closing span, .letBlock header body closing span ∈
        withinAll (Compilation.along style source regions).nodes →
      nodeText style (.letBlock header body closing span) =
        openingText style header ++
          ((trimmedBody body).flatMap (nodeText style) ++ lineFeedAfter (trimmedBody body)) ++
          closingText style header closing ∧
      Trimmed body (trimmedBody body) := by
  obtain ⟨hwell, htokens⟩ := parse_spec (Token.lexAlong source regions).tokens
  have hnodes : (Compilation.along style source regions).nodes =
      (parse (Token.lexAlong source regions).tokens).nodes := by
    rw [Compilation.along_eq]
  have hraw : source.content = (Compilation.along style source regions).nodes.flatMap raw := by
    rw [flatMap_raw, rawAll_eq_join, hnodes, htokens, Token.join_takeWhile_lexAlong]
  have houtput : (Compilation.along style source regions).output =
      (Compilation.along style source regions).nodes.flatMap (nodeText style) := by
    rw [Compilation.along_eq, render_eq_write, write, writeFrom_eq_flatMap]
  refine ⟨hraw, houtput, fun ts => rfl, fun hcount => ?_,
    fun header body closing span hblock => ?_⟩
  · rw [blockCount_eq_countAll] at hcount
    rw [houtput, flatMap_nodeText_of_countAll hcount, ← hraw]
  · rw [hnodes] at hblock
    have hheader := (hwell.of_mem_within _ hblock).1
    exact ⟨nodeText_letBlock style hheader.ne_nil body closing span, trimmed_trimmedBody body⟩

end LetBlocks.Output
