import LetBlocks.Proofs.Node.Lossless

/-!
`WellFormed` follows the recursion of a tree. Here it is read off at every node and every
sequence of nodes, wherever they stand: what a node is made of does not depend on its place,
and what may stand beside a node does not depend on the depth. The writer relies on both
without looking.
-/

namespace LetBlocks

/-- A declaration of a let header: a name, and perhaps an initializer with matching brackets,
no comma outside of them and something else than trivia. -/
structure Declaration.Sound (d : Declaration) : Prop where
  name : d.name.kind = .identifier
  matched : ∀ init ∈ d.initializer, Header.Matched false init
  significant : ∀ init ∈ d.initializer, ∃ t ∈ init, t.isTrivia = false

structure Header.Sound (header : Header) : Prop where
  declares : header.declarations ≠ []
  each : ∀ d ∈ header.declarations, d.Sound
  ends : ∃ letToken between brace, header.tokens = letToken :: between ++ [brace] ∧
    letToken.kind = .kwLet ∧ isOpenCurly brace = true

namespace Node

mutual

/-- A node and the nodes inside it, at all depths, each before those inside it. -/
def within : Node → List Node
  | plain ts => [plain ts]
  | letBlock header body closing span => letBlock header body closing span :: withinAll body

def withinAll : List Node → List Node
  | [] => []
  | node :: nodes => node.within ++ withinAll nodes

end

def body : Node → List Node
  | plain _ => []
  | letBlock _ body _ _ => body

/-- The sequences of nodes in a tree: the tree itself and the body of every block. -/
def sequences (nodes : List Node) : List (List Node) := nodes :: (withinAll nodes).map body

/-- What a node is made of. A block with a closing brace has no block in its body that lacks
one. -/
def Sound : Node → Prop
  | plain ts => ts ≠ []
  | letBlock header body closing _ =>
      header.Sound ∧ ∀ t ∈ closing, t.isPunct [Byte.closeCurly] = true ∧
        ∀ n ∈ body, n.isOpen = false

def held : Node → List Token
  | plain ts => ts
  | letBlock header body closing span =>
      (letBlock header body closing span).tokens ++
        header.declarations.flatMap fun d => d.name :: (d.tokens ++ d.initializer.getD [])

@[simp] theorem withinAll_append (nodes nodes' : List Node) :
    withinAll (nodes ++ nodes') = withinAll nodes ++ withinAll nodes' := by
  induction nodes with
  | nil => rfl
  | cons node nodes ih => simp [withinAll, ih]

/-! ### Nodes -/

mutual

theorem WellFormed.of_mem_within :
    ∀ {node : Node}, node.WellFormed → ∀ n ∈ node.within, n.WellFormed
  | plain _, h => by
      rw [within, List.forall_mem_singleton]
      exact h
  | letBlock _ _ _ _, h => by
      rw [within, List.forall_mem_cons]
      exact ⟨h, WellFormedAll.of_mem_within h.2.2⟩

theorem WellFormedAll.of_mem_within : ∀ {nodes : List Node}, WellFormedAll nodes →
    ∀ n ∈ withinAll nodes, n.WellFormed
  | [], _ => by simp [withinAll]
  | _ :: _, h => by
      rw [withinAll, List.forall_mem_append]
      exact ⟨h.1.of_mem_within, WellFormedAll.of_mem_within h.2.2.2⟩

end

mutual

theorem tokens_subset_of_mem_within :
    ∀ (node : Node), ∀ n ∈ node.within, n.tokens ⊆ node.tokens
  | plain _ => by simp [within]
  | letBlock header body closing span => by
      rw [within, List.forall_mem_cons]
      refine ⟨List.Subset.refl _, fun n hn => ?_⟩
      rw [tokens]
      exact List.subset_append_of_subset_left _
        (List.subset_append_of_subset_right _ (tokens_subset_of_mem_withinAll body n hn))

theorem tokens_subset_of_mem_withinAll :
    ∀ (nodes : List Node), ∀ n ∈ withinAll nodes, n.tokens ⊆ tokensAll nodes
  | [] => by simp [withinAll]
  | node :: nodes => by
      rw [withinAll, List.forall_mem_append, tokensAll]
      exact ⟨fun n hn => List.subset_append_of_subset_left _
        (tokens_subset_of_mem_within node n hn),
        fun n hn => List.subset_append_of_subset_right _
          (tokens_subset_of_mem_withinAll nodes n hn)⟩

end

end Node

theorem Header.IsDeclaration.sound {used : List Token} {d : Declaration}
    (h : IsDeclaration used d) : d.Sound := by
  cases h with
  | bare _ hname => exact ⟨hname, by simp, by simp⟩
  | valued _ hname _ _ hinit =>
      exact ⟨hname, by simpa using hinit.matched, by simpa using hinit.significant⟩

theorem Header.IsHeader.sound {header : Header}
    (h : IsHeader header.tokens header.declarations) : header.Sound := by
  refine ⟨h.ne_nil, fun d hd => ?_, ?_⟩
  · obtain ⟨used, hused⟩ := h.each d hd
    exact hused.sound
  · generalize header.tokens = tokens at h
    cases h with
    | @intro letToken paren brace gap list after _ hlet _ _ _ _ hbrace =>
        exact ⟨letToken, gap ++ paren :: list ++ after, brace, by simp, hlet, hbrace⟩

namespace Node

theorem WellFormed.sound {node : Node} (h : node.WellFormed) : node.Sound := by
  cases node with
  | plain ts => exact h
  | letBlock header body closing span =>
      obtain ⟨hheader, hclosing, -⟩ := h
      refine ⟨hheader.sound, fun t ht => ?_⟩
      obtain ⟨hcloses, hbody⟩ := hclosing t ht
      exact ⟨Token.isPunct_iff.2 (Token.closes?_eq_some_iff.1 hcloses), hbody⟩

/-- What declarations repeat is part of their header. -/
theorem WellFormed.held_subset {node : Node} (h : node.WellFormed) :
    node.held ⊆ node.tokens := by
  cases node with
  | plain ts => exact List.Subset.refl _
  | letBlock header body closing span =>
      have hheader := h.1
      have htokens : header.tokens ⊆ (letBlock header body closing span).tokens := by
        rw [tokens, List.append_assoc]
        exact List.subset_append_left _ _
      rw [held, List.append_subset]
      refine ⟨List.Subset.refl _, fun t ht => htokens ?_⟩
      obtain ⟨d, hd, ht⟩ := List.mem_flatMap.1 ht
      obtain ⟨used, hused⟩ := hheader.each d hd
      obtain ⟨hname, hinit⟩ := hused.parts_subset
      apply hheader.tokens_subset d hd
      rw [List.mem_cons, List.mem_append] at ht
      rcases ht with rfl | ht | ht
      · exact hname
      · exact ht
      · cases hsome : d.initializer with
        | none => simp [hsome] at ht
        | some init =>
            rw [hsome, Option.getD_some] at ht
            exact hinit init hsome ht

/-! ### Sequences -/

theorem WellFormed.body {node : Node} (h : node.WellFormed) : WellFormedAll node.body := by
  cases node with
  | plain ts => trivial
  | letBlock header body closing span => exact h.2.2

theorem WellFormedAll.of_mem_sequences {nodes seq : List Node} (h : WellFormedAll nodes)
    (hseq : seq ∈ sequences nodes) : WellFormedAll seq := by
  rw [sequences, List.mem_cons, List.mem_map] at hseq
  rcases hseq with rfl | ⟨n, hn, rfl⟩
  · exact h
  · exact (h.of_mem_within n hn).body

theorem WellFormedAll.isChain_apart {nodes : List Node} (h : WellFormedAll nodes) :
    nodes.IsChain Apart := by
  induction nodes with
  | nil => exact List.isChain_nil
  | cons node nodes ih =>
      rw [List.isChain_cons]
      exact ⟨h.2.2.1, ih h.2.2.2⟩

theorem WellFormedAll.closed_of_mem_dropLast {nodes : List Node} (h : WellFormedAll nodes) :
    ∀ n ∈ nodes.dropLast, n.isOpen = false := by
  induction nodes with
  | nil => simp
  | cons node nodes ih =>
      cases nodes with
      | nil => simp
      | cons next nodes =>
          rw [List.dropLast_cons_cons, List.forall_mem_cons]
          refine ⟨?_, ih h.2.2.2⟩
          rw [Bool.eq_false_iff]
          intro hopen
          cases h.2.1 hopen

/-- The tree of any list of tokens is in order. Each node is what it should be, and none holds
an end of input. In each sequence of nodes no plain run follows another, and only the last
block can lack its closing brace. -/
theorem parse_sound (tokens : List Token) :
    (∀ node ∈ withinAll (parse tokens).nodes, node.Sound ∧ ∀ t ∈ node.held, t.isEof = false) ∧
      ∀ nodes ∈ sequences (parse tokens).nodes,
        nodes.IsChain Apart ∧ ∀ node ∈ nodes.dropLast, node.isOpen = false := by
  obtain ⟨hwell, htokens⟩ := parse_spec tokens
  constructor
  · intro node hnode
    have hnode' := hwell.of_mem_within node hnode
    refine ⟨hnode'.sound, fun t ht => ?_⟩
    have hmem := tokens_subset_of_mem_withinAll _ node hnode (hnode'.held_subset ht)
    rw [htokens] at hmem
    exact Token.isEof_of_mem_takeWhile t hmem
  · intro nodes hnodes
    have hnodes' := hwell.of_mem_sequences hnodes
    exact ⟨hnodes'.isChain_apart, hnodes'.closed_of_mem_dropLast⟩

end Node

end LetBlocks
