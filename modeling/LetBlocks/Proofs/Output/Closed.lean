import LetBlocks.Proofs.Node.Tree
import LetBlocks.Proofs.Output.Runs

/-!
The output drops the blanks at the end of a declaration and at the end of the body of a
let-block. If the token before them is a literal that the end of its line left open, it now
goes on into what is written next. `Node.trimmedRuns` lists the runs where this can happen. A
source without open literals has none that ends so, and its output has no open literal either,
since it is made of tokens of the source, of comments that close and of pieces that are no
literals.
-/

namespace LetBlocks

open Piece

namespace Node

def lastRun (nodes : List Node) : List (List Token) :=
  match nodes.getLast? with
  | some (plain ts) => [ts]
  | _ => []

theorem mem_lastRun_cons {node : Node} {nodes : List Node} {run : List Token}
    (h : run ∈ lastRun nodes) : run ∈ lastRun (node :: nodes) := by
  cases nodes with
  | nil => cases h
  | cons _ _ => exact h

mutual

/-- The runs behind which the output drops blanks, at all depths: the declarations of
let-blocks, and the plain runs at the ends of their bodies. -/
def trimmedRuns : Node → List (List Token)
  | plain _ => []
  | letBlock header body _ _ =>
    header.declarations.map Declaration.tokens ++ lastRun body ++ trimmedRunsAll body

def trimmedRunsAll : List Node → List (List Token)
  | [] => []
  | node :: nodes => node.trimmedRuns ++ trimmedRunsAll nodes

end

theorem lastRun_subset (nodes : List Node) : ∀ run ∈ lastRun nodes, run ⊆ tokensAll nodes := by
  induction nodes with
  | nil => simp [lastRun]
  | cons node nodes ih =>
      cases nodes with
      | nil => cases node <;> simp [lastRun, tokensAll, tokens]
      | cons node' nodes =>
          intro run hrun
          exact List.subset_append_of_subset_right _ (ih run hrun)

mutual

/-- They are made of tokens of the tree. -/
theorem trimmedRuns_subset :
    ∀ {node : Node}, node.WellFormed → ∀ run ∈ node.trimmedRuns, run ⊆ node.tokens
  | plain _, _ => by simp [trimmedRuns]
  | letBlock header body closing _, hwell => by
      obtain ⟨hheader, -, hbody⟩ := hwell
      rw [trimmedRuns, tokens, List.append_assoc, List.append_assoc, List.forall_mem_append,
        List.forall_mem_append, List.forall_mem_map]
      have hinside : ∀ run, run ⊆ tokensAll body →
          run ⊆ header.tokens ++ (tokensAll body ++ closing.toList) :=
        fun run hrun => List.subset_append_of_subset_right _
          (List.subset_append_of_subset_left _ hrun)
      exact ⟨fun d hd => List.subset_append_of_subset_left _ (hheader.tokens_subset d hd),
        fun run hrun => hinside run (lastRun_subset body run hrun),
        fun run hrun => hinside run (trimmedRunsAll_subset hbody run hrun)⟩

theorem trimmedRunsAll_subset : ∀ {nodes : List Node}, WellFormedAll nodes →
    ∀ run ∈ trimmedRunsAll nodes, run ⊆ tokensAll nodes
  | [], _ => by simp [trimmedRunsAll]
  | node :: nodes, hwell => by
      rw [trimmedRunsAll, tokensAll, List.forall_mem_append]
      exact ⟨fun run hrun =>
        List.subset_append_of_subset_left _ (trimmedRuns_subset hwell.1 run hrun),
        fun run hrun => List.subset_append_of_subset_right _
          (trimmedRunsAll_subset hwell.2.2.2 run hrun)⟩

end

end Node

namespace Piece

def IsClosed (p : Piece) : Prop := p.closed = true ∧ p.isUnclosed = false

def AllClosed (ps : List Piece) : Prop := ∀ p ∈ ps, p.IsClosed

theorem IsClosed.settled_eq {p : Piece} (h : p.IsClosed) : p.settled = p := by
  obtain ⟨kind, lexeme, closed⟩ := p
  obtain ⟨rfl, hunclosed⟩ := h
  rw [settled, hunclosed]
  rfl

theorem AllClosed.map_settled {ps : List Piece} (h : AllClosed ps) : ps.map settled = ps :=
  (List.map_congr_left fun p hp => (h p hp).settled_eq).trans (List.map_id _)

theorem allClosed_nil : AllClosed [] := by
  simp [AllClosed]

theorem allClosed_cons {p : Piece} {ps : List Piece} :
    AllClosed (p :: ps) ↔ p.IsClosed ∧ AllClosed ps :=
  List.forall_mem_cons

theorem allClosed_append {ps qs : List Piece} :
    AllClosed (ps ++ qs) ↔ AllClosed ps ∧ AllClosed qs :=
  List.forall_mem_append

/-- Pieces that are no literals. -/
theorem allClosed_fixed {ps : List Piece}
    (h : ps.all (fun p => p.closed && !p.kind.isLiteral) = true) : AllClosed ps := by
  intro p hp
  have hboth := List.all_eq_true.1 h p hp
  rw [Bool.and_eq_true, Bool.not_eq_true'] at hboth
  exact ⟨hboth.1, isUnclosed_of_kind hboth.2⟩

theorem AllClosed.flatten {α : Type} {f : α → List Piece} {xs : List α}
    (h : ∀ x ∈ xs, AllClosed (f x)) : AllClosed (xs.flatMap f) := by
  intro p hp
  obtain ⟨x, hx, hp⟩ := List.mem_flatMap.1 hp
  exact h x hx p hp

theorem AllClosed.intercalate {separator : List Piece} {runs : List (List Piece)}
    (hseparator : AllClosed separator) (h : ∀ run ∈ runs, AllClosed run) :
    AllClosed (separator.intercalate runs) := by
  induction runs with
  | nil => exact allClosed_nil
  | cons run runs ih =>
      rw [List.forall_mem_cons] at h
      cases runs with
      | nil => simpa using h.1
      | cons run' runs =>
          rw [List.intercalate_cons_cons, allClosed_append, allClosed_append]
          exact ⟨⟨h.1, hseparator⟩, ih h.2⟩

end Piece

namespace Output

theorem allClosed_of_subset {ts us : List Token} (h : AllClosed (copied us))
    (hsubset : ts ⊆ us) : AllClosed (copied ts) := by
  intro p hp
  obtain ⟨t, ht, rfl⟩ := List.mem_map.1 hp
  exact h _ (List.mem_map_of_mem (hsubset ht))

theorem trimStart_subset (ts : List Token) : trimStart ts ⊆ ts :=
  (List.dropWhile_suffix _).subset

theorem trimEnd_subset (ts : List Token) : trimEnd ts ⊆ ts := by
  obtain ⟨blanks, hsplit, -⟩ := exists_trimEnd ts
  conv_rhs => rw [hsplit]
  exact List.subset_append_left _ _

theorem endsOpen_of_allClosed {ts : List Token} (h : AllClosed (copied ts)) :
    endsOpen ts = false := by
  rw [endsOpen_eq_false_iff]
  intro t ht
  exact (h _ (List.mem_map_of_mem (trimEnd_subset ts (List.mem_of_getLast? ht)))).2

theorem allClosed_closedPieces {ts : List Token} (h : AllClosed (copied ts)) :
    AllClosed (closedPieces ts) := by
  rw [closedPieces, allClosed_append]
  refine ⟨h, ?_⟩
  split_ifs
  · exact allClosed_fixed rfl
  · exact allClosed_nil

theorem allClosed_trimmedPieces {ts : List Token} (h : AllClosed (copied ts)) :
    AllClosed (trimmedPieces ts) :=
  allClosed_closedPieces
    (allClosed_of_subset h (List.Subset.trans (trimEnd_subset _) (trimStart_subset ts)))

theorem allClosed_plainPieces (trim first last : Bool) {ts : List Token}
    (h : AllClosed (copied ts)) : AllClosed (plainPieces trim first last ts) := by
  have hstart : AllClosed (copied (if trim && first then trimStart ts else ts)) := by
    split_ifs
    · exact allClosed_of_subset h (trimStart_subset ts)
    · exact h
  unfold plainPieces
  dsimp only
  generalize (if trim && first then trimStart ts else ts) = us at hstart ⊢
  split_ifs
  · exact allClosed_closedPieces (allClosed_of_subset hstart (trimEnd_subset us))
  · exact hstart

theorem allClosed_comment {text : Text} (h : Closes text) : AllClosed [comment text] := by
  rw [AllClosed, List.forall_mem_singleton]
  exact ⟨rfl, isUnclosed_of_readLiteral? rfl (readLiteral?_comment h .operand [])⟩

theorem allClosed_operandPieces {d : Declaration}
    (h : ∀ init ∈ d.initializer, AllClosed (copied init)) : AllClosed (operandPieces d) := by
  have hvalue : AllClosed (valuePieces d) := by
    unfold valuePieces
    cases hinit : d.initializer with
    | none => exact allClosed_fixed rfl
    | some init => exact allClosed_trimmedPieces (h init hinit)
  unfold operandPieces
  split_ifs
  · rw [List.cons_append, allClosed_cons, allClosed_append]
    exact ⟨⟨rfl, isUnclosed_of_kind rfl⟩, hvalue, allClosed_fixed rfl⟩
  · exact hvalue

theorem allClosed_layerPieces (style : Style) {d : Declaration}
    (hname : d.name.toPiece.IsClosed) (h : ∀ init ∈ d.initializer, AllClosed (copied init)) :
    AllClosed (layerPieces style d) := by
  have hlayer : AllClosed (layerNotePieces style) := by
    unfold layerNotePieces
    split_ifs
    · exact allClosed_comment closes_layerNote
    · exact allClosed_nil
  have hvalue : AllClosed (valueNotePieces style d) := by
    unfold valueNotePieces
    split_ifs
    · exact allClosed_comment (closes_valueNote d)
    · exact allClosed_nil
  simp only [layerPieces, allClosed_append]
  refine ⟨⟨⟨⟨⟨⟨allClosed_fixed rfl, allClosed_operandPieces h⟩, allClosed_fixed rfl⟩, hlayer⟩,
    ?_⟩, hvalue⟩,
    allClosed_fixed rfl⟩
  rw [allClosed_cons, allClosed_cons, allClosed_cons]
  exact ⟨⟨rfl, isUnclosed_of_kind rfl⟩, ⟨rfl, isUnclosed_of_kind rfl⟩, hname, allClosed_nil⟩

theorem allClosed_openingPieces (style : Style) {header : Header}
    (hheader : Header.IsHeader header.tokens header.declarations)
    (h : AllClosed (copied header.tokens)) : AllClosed (openingPieces style header) := by
  have htokens : ∀ d ∈ header.declarations, AllClosed (copied d.tokens) :=
    fun d hd => allClosed_of_subset h (hheader.tokens_subset d hd)
  rw [openingPieces, if_neg hheader.ne_nil]
  split_ifs
  · refine AllClosed.flatten fun d hd => ?_
    obtain ⟨us, hused⟩ := hheader.each d hd
    obtain ⟨hname, hinit⟩ := hused.parts_subset
    exact allClosed_layerPieces style (htokens d hd _ (List.mem_map_of_mem hname))
      fun init hmem => allClosed_of_subset (htokens d hd) (hinit init hmem)
  · rw [nativePieces, allClosed_append, allClosed_append]
    refine ⟨⟨allClosed_fixed rfl, AllClosed.intercalate (allClosed_fixed rfl) ?_⟩,
      allClosed_fixed rfl⟩
    rw [List.forall_mem_map]
    exact fun d hd => allClosed_trimmedPieces (htokens d hd)

theorem allClosed_closingPieces (style : Style) {header : Header} (closing : Option Token)
    (h : header.declarations ≠ []) : AllClosed (closingPieces style header closing) := by
  rw [closingPieces, if_neg h]
  split_ifs
  · exact allClosed_fixed (by simp [mark, Token.Kind.isLiteral])
  · exact allClosed_fixed rfl

mutual

theorem allClosed_writtenNode (style : Style) :
    ∀ {node : Node} (trim first last : Bool), node.WellFormed →
    AllClosed (copied node.tokens) → AllClosed (writtenNode style trim first last node)
  | .plain ts, trim, first, last, _, h => allClosed_plainPieces trim first last h
  | .letBlock header body closing _, _, _, _, hwell, h => by
      obtain ⟨hheader, -, hbody⟩ := hwell
      rw [Node.tokens, copied_append, copied_append, allClosed_append, allClosed_append] at h
      rw [writtenNode, allClosed_append, allClosed_append]
      exact ⟨⟨allClosed_openingPieces style hheader h.1.1,
        allClosed_writtenFrom style _ _ hbody h.1.2⟩,
        allClosed_closingPieces style closing hheader.ne_nil⟩

theorem allClosed_writtenFrom (style : Style) :
    ∀ {nodes : List Node} (trim first : Bool), Node.WellFormedAll nodes →
    AllClosed (copied (Node.tokensAll nodes)) → AllClosed (writtenFrom style trim first nodes)
  | [], _, _, _, _ => allClosed_nil
  | node :: nodes, trim, first, hwell, h => by
      rw [Node.tokensAll, copied_append, allClosed_append] at h
      rw [writtenFrom, allClosed_append]
      exact ⟨allClosed_writtenNode style _ _ _ hwell.1 h.1,
        allClosed_writtenFrom style _ _ hwell.2.2.2 h.2⟩

end

end Output

end LetBlocks
