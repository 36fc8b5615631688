import LetBlocks.Proofs.Header.Grammar
import LetBlocks.Proofs.Node.Walks
import Mathlib.Data.List.Chain

/-!
A tree keeps all tokens it was read from, and `Node.tokens` lists them in order. A tree is well
formed if each of its let-blocks has a header of the grammar and ends with a closing brace if
it ends at all. A block that does not end is the last of its sequence, and so is the block it
stands in. Plain runs are not empty, and never does one follow another.
-/

namespace LetBlocks.Node

mutual

def tokens : Node → List Token
  | plain ts => ts
  | letBlock header body closing _ => header.tokens ++ tokensAll body ++ closing.toList

def tokensAll : List Node → List Token
  | [] => []
  | node :: nodes => node.tokens ++ tokensAll nodes

end

/-- A let-block that ran into the end of the script. -/
def isOpen : Node → Bool
  | plain _ => false
  | letBlock _ _ closing _ => closing.isNone

def isPlain : Node → Bool
  | plain _ => true
  | letBlock _ _ _ _ => false

theorem isPlain_of_isOpen {node : Node} (h : node.isOpen = true) : node.isPlain = false := by
  cases node with
  | plain ts => cases h
  | letBlock header body closing span => rfl

def Apart (a b : Node) : Prop := ¬ (a.isPlain = true ∧ b.isPlain = true)

mutual

def WellFormed : Node → Prop
  | plain ts => ts ≠ []
  | letBlock header body closing _ =>
      Header.IsHeader header.tokens header.declarations ∧
        (∀ t ∈ closing, t.closes? = some .curly ∧ ∀ n ∈ body, n.isOpen = false) ∧
        WellFormedAll body

def WellFormedAll : List Node → Prop
  | [] => True
  | node :: nodes =>
      node.WellFormed ∧ (node.isOpen = true → nodes = []) ∧ (∀ n ∈ nodes.head?, Apart node n) ∧
        WellFormedAll nodes

end

theorem Apart.symm {a b : Node} (h : Apart a b) : Apart b a := fun hba => h hba.symm

theorem isChain_apart_reverse {nodes : List Node} (h : nodes.IsChain Apart) :
    nodes.reverse.IsChain Apart :=
  List.isChain_reverse.2 (h.imp fun _ _ hab => hab.symm)

@[simp] theorem tokensAll_append (nodes nodes' : List Node) :
    tokensAll (nodes ++ nodes') = tokensAll nodes ++ tokensAll nodes' := by
  induction nodes with
  | nil => rfl
  | cons node nodes ih => simp [tokensAll, ih]

theorem join_toList_closing (closing : Option Token) :
    Token.join closing.toList = closingText closing := by
  cases closing <;> simp [closingText]

mutual

theorem raw_eq_join : ∀ node : Node, node.raw = Token.join node.tokens
  | plain ts => rfl
  | letBlock header body closing _ => by
      rw [raw, tokens, rawAll_eq_join body, Token.join_append, Token.join_append,
        join_toList_closing]

theorem rawAll_eq_join : ∀ nodes : List Node, rawAll nodes = Token.join (tokensAll nodes)
  | [] => rfl
  | node :: nodes => by
      rw [rawAll, tokensAll, raw_eq_join node, rawAll_eq_join nodes, Token.join_append]

end

/-- A sequence whose nodes are all closed can be extended by any well-formed node. -/
theorem wellFormedAll_append_singleton {nodes : List Node} {node : Node}
    (hnodes : ∀ n ∈ nodes, n.WellFormed ∧ n.isOpen = false) (hnode : node.WellFormed)
    (hapart : (nodes ++ [node]).IsChain Apart) : WellFormedAll (nodes ++ [node]) := by
  induction nodes with
  | nil => exact ⟨hnode, fun _ => rfl, by simp, trivial⟩
  | cons n nodes ih =>
      rw [List.forall_mem_cons] at hnodes
      obtain ⟨⟨hn, hopen⟩, hrest⟩ := hnodes
      rw [List.cons_append, List.isChain_cons] at hapart
      exact ⟨hn, by simp [hopen], hapart.1, ih hrest hapart.2⟩

theorem wellFormedAll_of_closed {nodes : List Node}
    (hnodes : ∀ n ∈ nodes, n.WellFormed ∧ n.isOpen = false) (hapart : nodes.IsChain Apart) :
    WellFormedAll nodes := by
  induction nodes with
  | nil => trivial
  | cons n nodes ih =>
      rw [List.forall_mem_cons] at hnodes
      obtain ⟨⟨hn, hopen⟩, hrest⟩ := hnodes
      rw [List.isChain_cons] at hapart
      exact ⟨hn, by simp [hopen], hapart.1, ih hrest hapart.2⟩

end LetBlocks.Node
