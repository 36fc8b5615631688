import LetBlocks.Output
import LetBlocks.Proofs.Token.Basic

/-!
Reading a tree's source text back, counting its let-blocks, measuring its depth and writing it
out are done with a list of the sequences that are left to visit. The walks are the structural
recursions of `Node.raw`, `Node.count`, `Node.depth` and `Output.write`.

Text is collected in order, and the invariant is that what has been collected, followed by what
the recursion makes of every sequence that is left, never changes. Let-blocks are met in
another order: the bodies of a sequence are put aside until its end, and the one that was put
aside last is taken first. `Node.visits` spells that order out. Every block is met once and at
its depth, so what a fold makes of the blocks does not depend on the order if its steps
commute. A writer clears what an earlier run has left, so its invariant starts with the tree
alone.
-/

namespace LetBlocks

namespace Node

/-! ### Source text -/

theorem flatten_collectRaw (out : Array Text) (pending : List (List Node × Option Token)) :
    (collectRaw out pending).toList.flatten =
      out.toList.flatten ++ pending.flatMap fun entry => rawAll entry.1 ++
        closingText entry.2 := by
  fun_induction collectRaw out pending with
  | case1 => simp
  | case2 out closing pending ih =>
      rw [ih]
      simp [rawAll]
  | case3 out closing pending tokens nodes ih =>
      rw [ih]
      simp [rawAll, raw]
  | case4 out closing pending header body inner span nodes ih =>
      rw [ih]
      simp [rawAll, raw]

theorem rawText_eq_rawAll (nodes : List Node) : rawText nodes = rawAll nodes := by
  rw [rawText, flatten_collectRaw]
  simp [closingText]

theorem rawTextOf_eq_raw (node : Node) : node.rawTextOf = node.raw := by
  cases node with
  | plain tokens => rfl
  | letBlock header body closing span => rw [rawTextOf, rawText_eq_rawAll, raw]

theorem flatMap_raw (nodes : List Node) : nodes.flatMap raw = rawAll nodes := by
  induction nodes with
  | nil => rfl
  | cons node nodes ih => rw [List.flatMap_cons, ih, rawAll]

/-! ### The order of visits -/

def ownBlocks (depth : Nat) : List Node → List (Header × Nat)
  | [] => []
  | plain _ :: nodes => ownBlocks depth nodes
  | letBlock header _ _ _ :: nodes => (header, depth + 1) :: ownBlocks depth nodes

mutual

def innerBlocks (depth : Nat) : Node → List (Header × Nat)
  | plain _ => []
  | letBlock _ body _ _ => ownBlocks (depth + 1) body ++ innerBlocksAll (depth + 1) body

def innerBlocksAll (depth : Nat) : List Node → List (Header × Nat)
  | [] => []
  | node :: nodes => innerBlocksAll depth nodes ++ node.innerBlocks depth

end

/-- The let-blocks of a sequence as the walk comes to them. -/
def visits (depth : Nat) (nodes : List Node) : List (Header × Nat) :=
  ownBlocks depth nodes ++ innerBlocksAll depth nodes

mutual

def blocks (depth : Nat) : Node → List (Header × Nat)
  | plain _ => []
  | letBlock header body _ _ => (header, depth + 1) :: blocksAll (depth + 1) body

def blocksAll (depth : Nat) : List Node → List (Header × Nat)
  | [] => []
  | node :: nodes => node.blocks depth ++ blocksAll depth nodes

end

theorem visits_plain (depth : Nat) (tokens : List Token) (nodes : List Node) :
    visits depth (plain tokens :: nodes) = visits depth nodes := by
  simp [visits, ownBlocks, innerBlocksAll, innerBlocks]

/-- The body of a block waits until all that follows the block has been visited. -/
theorem visits_letBlock (depth : Nat) (header : Header) (body : List Node)
    (closing : Option Token) (span : Span) (nodes : List Node) :
    visits depth (letBlock header body closing span :: nodes) =
      (header, depth + 1) :: (visits depth nodes ++ visits (depth + 1) body) := by
  simp [visits, ownBlocks, innerBlocksAll, innerBlocks]

theorem foldBlocks_eq_foldl {σ : Type} (visit : σ → Header → Nat → σ) (s : σ)
    (pending : List (List Node × Nat)) :
    foldBlocks visit s pending =
      (pending.flatMap fun entry => visits entry.2 entry.1).foldl
        (fun s block => visit s block.1 block.2) s := by
  fun_induction foldBlocks visit s pending with
  | case1 => rfl
  | case2 s depth pending ih => exact ih
  | case3 s tokens nodes depth pending ih =>
      rw [ih, List.flatMap_cons, List.flatMap_cons, visits_plain]
  | case4 s header body closing span nodes depth pending ih =>
      rw [ih]
      simp only [List.flatMap_cons, visits_letBlock, List.cons_append, List.foldl_cons,
        List.append_assoc]

/-- Every block is visited once. -/
theorem visits_perm :
    ∀ (depth : Nat) (nodes : List Node), (visits depth nodes).Perm (blocksAll depth nodes)
  | _, [] => .nil
  | depth, plain tokens :: nodes => by
      rw [visits_plain]
      exact visits_perm depth nodes
  | depth, letBlock header body closing span :: nodes => by
      have hboth := (visits_perm depth nodes).append (visits_perm (depth + 1) body)
      rw [visits_letBlock, blocksAll, blocks, List.cons_append]
      exact (hboth.trans List.perm_append_comm).cons _

/-- A fold whose steps commute does not show the order of the visits. -/
theorem foldBlocks_of_comm {σ : Type} {visit : σ → Header → Nat → σ}
    (hcomm : ∀ s (a b : Header × Nat), visit (visit s a.1 a.2) b.1 b.2 =
      visit (visit s b.1 b.2) a.1 a.2)
    (s : σ) (nodes : List Node) :
    foldBlocks visit s [(nodes, 0)] =
      (blocksAll 0 nodes).foldl (fun s block => visit s block.1 block.2) s := by
  rw [foldBlocks_eq_foldl, List.flatMap_singleton]
  exact (visits_perm 0 nodes).foldl_eq' (fun a _ b _ s => hcomm s a b) s

/-! ### Number and depth of the blocks -/

@[simp] theorem countAll_append (nodes nodes' : List Node) :
    countAll (nodes ++ nodes') = countAll nodes + countAll nodes' := by
  induction nodes with
  | nil => simp [countAll]
  | cons node nodes ih => simp [countAll, ih, Nat.add_assoc]

mutual

theorem length_blocks : ∀ (depth : Nat) (node : Node), (node.blocks depth).length = node.count
  | _, plain _ => rfl
  | depth, letBlock header body _ _ => by
      rw [blocks, count, List.length_cons, length_blocksAll (depth + 1) body, Nat.add_comm]

theorem length_blocksAll :
    ∀ (depth : Nat) (nodes : List Node), (blocksAll depth nodes).length = countAll nodes
  | _, [] => rfl
  | depth, node :: nodes => by
      rw [blocksAll, countAll, List.length_append, length_blocks depth node,
        length_blocksAll depth nodes]

end

theorem blockCount_eq_countAll (nodes : List Node) : blockCount nodes = countAll nodes := by
  rw [blockCount, foldBlocks_of_comm (fun _ _ _ => rfl), List.foldl_add_const,
    length_blocksAll]
  omega

mutual

theorem deepest_blocks : ∀ {depth deepest : Nat} (node : Node), depth ≤ deepest →
    (node.blocks depth).foldl (fun deepest block => max deepest block.2) deepest =
      max deepest (depth + node.depth)
  | depth, deepest, plain _, h => by
      rw [blocks, Node.depth]
      exact (Nat.max_eq_left h).symm
  | depth, deepest, letBlock header body _ _, h => by
      rw [blocks, List.foldl_cons, deepest_blocksAll body (Nat.le_max_right _ _), Node.depth]
      omega

/-- What is deepest so far is at least as deep as the sequence itself, so a sequence without
blocks changes nothing. -/
theorem deepest_blocksAll : ∀ {depth deepest : Nat} (nodes : List Node), depth ≤ deepest →
    (blocksAll depth nodes).foldl (fun deepest block => max deepest block.2) deepest =
      max deepest (depth + depthAll nodes)
  | depth, deepest, [], h => by
      rw [blocksAll, depthAll]
      exact (Nat.max_eq_left h).symm
  | depth, deepest, node :: nodes, h => by
      rw [blocksAll, List.foldl_append, deepest_blocks node h,
        deepest_blocksAll nodes (Nat.le_trans h (Nat.le_max_left _ _)), depthAll]
      omega

end

theorem nestingDepth_eq_depthAll (nodes : List Node) :
    nestingDepth nodes = depthAll nodes := by
  rw [nestingDepth, foldBlocks_of_comm (fun _ _ _ => Nat.max_right_comm ..),
    deepest_blocksAll nodes (Nat.le_refl 0)]
  omega

/-- The walks compute what the recursions on the tree say. The text of a sequence is that of
its nodes one after another, and the number and the depth of its let-blocks are the recursive
ones. A fold over the blocks meets each of them once and at its depth, though the blocks of a
sequence come before those of its bodies and the last body comes first. -/
theorem walks_eq_recursions (nodes : List Node) :
    rawText nodes = nodes.flatMap rawTextOf ∧ rawText nodes = rawAll nodes ∧
      (∀ node, rawTextOf node = raw node) ∧
      blockCount nodes = countAll nodes ∧ nestingDepth nodes = depthAll nodes ∧
      (∀ (σ : Type) (visit : σ → Header → Nat → σ) (s : σ), foldBlocks visit s [(nodes, 0)] =
        (visits 0 nodes).foldl (fun s block => visit s block.1 block.2) s) ∧
      (visits 0 nodes).Perm (blocksAll 0 nodes) := by
  refine ⟨?_, rawText_eq_rawAll nodes, rawTextOf_eq_raw, blockCount_eq_countAll nodes,
    nestingDepth_eq_depthAll nodes, fun σ visit s => ?_, visits_perm 0 nodes⟩
  · rw [funext rawTextOf_eq_raw, flatMap_raw, rawText_eq_rawAll]
  · rw [foldBlocks_eq_foldl, List.flatMap_singleton]

end Node

namespace Output

namespace Pending

theorem trim_ofBody (style : Style) (header : Header) (closing : Option Token) :
    (ofBody style header closing).trim = trimsBody header := by
  unfold ofBody trimsBody
  split_ifs with h <;> simp [h]

theorem first_ofBody (style : Style) (header : Header) (closing : Option Token) :
    (ofBody style header closing).first = true := by
  unfold ofBody
  split_ifs <;> rfl

/-- What follows a sequence does not depend on how much of it is left. -/
@[simp] theorem ending_passed (pending : Pending) :
    { pending with first := false }.ending = pending.ending := rfl

theorem ending_ofBody (style : Style) (header : Header) (closing : Option Token) :
    (ofBody style header closing).ending = closingText style header closing := by
  unfold ending ofBody closingText
  split_ifs <;> simp

end Pending

namespace Writer

/-- The text that a writer will have written in the end: what it has written, and for every
sequence that is left what the recursion makes of it. -/
def text (w : Writer) : Text :=
  w.out.toList.flatten ++ w.pending.flatMap fun entry =>
    writeFrom w.style entry.2.trim entry.2.first entry.1 ++ entry.2.ending

theorem style_step (w : Writer) (outer : List (List Node × Pending))
    (entry : List Node × Pending) : (w.step outer entry).style = w.style := by
  rcases entry with ⟨_ | ⟨_ | _, nodes⟩, pending⟩ <;> rfl

/-- A step moves text from what is left to what is written. -/
theorem text_step {w : Writer} {outer : List (List Node × Pending)}
    {entry : List Node × Pending} (h : w.pending = entry :: outer) :
    (w.step outer entry).text = w.text := by
  obtain ⟨nodes, pending⟩ := entry
  cases nodes with
  | nil => simp [text, step, h, writeFrom]
  | cons node nodes =>
      cases node with
      | plain tokens => simp [text, step, h, writeFrom, writeNode]
      | letBlock header body closing span =>
          simp [text, step, h, writeFrom, writeNode, Pending.trim_ofBody, Pending.first_ofBody,
            Pending.ending_ofBody]

theorem text_run (w : Writer) : w.run.text = w.text := by
  fun_induction run w with
  | case1 => rfl
  | case2 w entry outer hpending ih => exact ih.trans (text_step hpending)

theorem style_run (w : Writer) : w.run.style = w.style := by
  fun_induction run w with
  | case1 => rfl
  | case2 w entry outer hpending ih => exact ih.trans (style_step w outer entry)

theorem pending_run (w : Writer) : w.run.pending = [] := by
  fun_induction run w with
  | case1 w hpending => exact hpending
  | case2 w entry outer hpending ih => exact ih

/-- A writer writes what is meant, whatever it has written before. -/
theorem generate_eq_write (w : Writer) (nodes : List Node) :
    (w.generate nodes).1 = write w.style nodes := by
  have hrun := text_run (w.start nodes)
  rw [text, pending_run, List.flatMap_nil, List.append_nil] at hrun
  rw [generate, hrun]
  simp [text, start, write, Pending.ending]

theorem style_generate (w : Writer) (nodes : List Node) :
    (w.generate nodes).2.style = w.style :=
  style_run (w.start nodes)

end Writer

theorem render_eq_write (style : Style) (nodes : List Node) :
    render style nodes = write style nodes :=
  Writer.generate_eq_write { style } nodes

end Output

end LetBlocks
